import Pinion64.TcbTable
import Pinion64.PageApi

/-! The bodies of the API calls on threads, interrupts and faults. -/
namespace Pinion64

section Thread

/-- `(__PINION_thread_id) __PINION_THREAD_ID_SELF` -/
def pinionThreadIdSelf : BitVec 32 := -1

/-- apilogic_thread_yield does nothing; the entry yields. -/
def apilogicThreadYield (k : Kernel) : Kernel := k

def apilogicThreadCreate (S : PageSource) (k : Kernel) : BitVec 32 × Kernel :=
  let (newTcb, k) := tcbNew S k
  if newTcb = 0 then (0, k)
  else
    let k := k.setState newTcb tcbStateSuspended
    ((k.tcb newTcb).id, k)

/-- A thread id argument with THREAD_ID_SELF replaced by the active thread's id. -/
def selfOr (k : Kernel) (thread : BitVec 32) : BitVec 32 :=
  if thread = pinionThreadIdSelf then (k.tcb k.activeTcb).id else thread

/-- No answer if the scheduler's search never ends. -/
def apilogicThreadPause (k : Kernel) (thread : BitVec 32) : Option (Bool × Kernel) :=
  let tcb := tcbGet k (selfOr k thread)
  if tcb = 0 then some (false, k)
  else
    let state := (k.tcb tcb).state
    if state = tcbStateSuspended ∨ state = tcbStateSuspendedWaiting then some (true, k)
    else if state = tcbStateWaiting then some (true, k.setState tcb tcbStateSuspendedWaiting)
    else if state = tcbStateQueued then
      match schedulerRemTcb k tcb with
      | none => none
      | some (_, k) => some (true, k.setState tcb tcbStateSuspended)
    else if state = tcbStateRunning then some (true, k.setState tcb tcbStateSuspended)
    else some (false, k)

def apilogicThreadResume (k : Kernel) (thread : BitVec 32) : Bool × Kernel :=
  let tcb := tcbGet k (selfOr k thread)
  if tcb = 0 then (false, k)
  else
    let state := (k.tcb tcb).state
    if state = tcbStateSuspended then
      let k := schedulerAddTcb k tcb
      (true, k.setState tcb tcbStateQueued)
    else if state = tcbStateSuspendedWaiting then (true, k.setState tcb tcbStateWaiting)
    else (false, k)

def pinionInterruptPagefault : BitVec 16 := 0x0080
def pinionInterruptMiscfault : BitVec 16 := 0x0081
def pinionInterruptZombie : BitVec 16 := 0x0082

def apilogicThreadExit (k : Kernel) : Kernel :=
  let k := k.setState k.activeTcb tcbStateSuspended
  let k := queueZombie k k.activeTcb
  interruptVectorFire k pinionInterruptZombie

def apilogicThreadReap (k : Kernel) (thread : BitVec 32) : Bool × Kernel :=
  let tcb := tcbGet k thread
  if tcb = 0 then (false, k)
  else if (k.tcb tcb).state ≠ tcbStateSuspended then (false, k)
  else (true, tcbDel k tcb)

/-- `struct __PINION_thread_state` -/
structure ThreadState where
  rip : Word
  rsp : Word
  rbx : Word
  rbp : Word
  r12 : Word
  r13 : Word
  r14 : Word
  r15 : Word
  rax : Word
  rcx : Word
  rdx : Word
  rdi : Word
  rsi : Word
  r8 : Word
  r9 : Word
  r10 : Word
  r11 : Word
  fs : Word
  gs : Word
  cs : Word
  ss : Word
  ds : Word

def pinionThreadStateClassRegsIp : BitVec 32 := 0x0001
def pinionThreadStateClassRegsSp : BitVec 32 := 0x0002
def pinionThreadStateClassRegsCallee : BitVec 32 := 0x0007
def pinionThreadStateClassRegsCaller : BitVec 32 := 0x0008
def pinionThreadStateClassRegsSystem : BitVec 32 := 0x0010

/-- The states in which pull_state and push_state accept a thread. -/
def Tcb.Stopped (t : Tcb) : Prop :=
  t.state = tcbStateSuspended ∨ t.state = tcbStateSuspendedWaiting

instance (t : Tcb) : Decidable t.Stopped := by unfold Tcb.Stopped; infer_instance

def pullRegs (t : Tcb) (stateClass : BitVec 32) (s : ThreadState) : ThreadState :=
  let s := if stateClass &&& pinionThreadStateClassRegsIp ≠ 0 then
    { s with rip := t.regs.rip } else s
  let s := if stateClass &&& pinionThreadStateClassRegsSp ≠ 0 then
    { s with rsp := t.regs.rsp } else s
  let s := if stateClass &&& pinionThreadStateClassRegsCallee ≠ 0 then
    { s with
      rbx := t.regs.rbx, rbp := t.regs.rbp, r12 := t.regs.r12, r13 := t.regs.r13,
      r14 := t.regs.r14, r15 := t.regs.r15 } else s
  let s := if stateClass &&& pinionThreadStateClassRegsCaller ≠ 0 then
    { s with
      rax := t.regs.rax, rcx := t.regs.rcx, rdx := t.regs.rdx, rdi := t.regs.rdi,
      rsi := t.regs.rsi, r8 := t.regs.r8, r9 := t.regs.r9, r10 := t.regs.r10,
      r11 := t.regs.r11 } else s
  if stateClass &&& pinionThreadStateClassRegsSystem ≠ 0 then
    { s with gs := t.gs, fs := 0, cs := t.regs.cs, ss := t.regs.ss, ds := t.regs.ss }
  else s

/-- The buffer that `state` points to is handed over and returned as `s`. -/
def apilogicThreadPullState (k : Kernel) (thread stateClass : BitVec 32) (state : Ptr)
    (s : ThreadState) : Bool × ThreadState :=
  if state = 0 then (false, s)
  else
    let tcb := tcbGet k thread
    if tcb = 0 then (false, s)
    else if ¬ (k.tcb tcb).Stopped then (false, s)
    else (true, pullRegs (k.tcb tcb) stateClass s)

def pushRegs (r : Regs) (stateClass : BitVec 32) (s : ThreadState) : Regs :=
  let r := if stateClass &&& pinionThreadStateClassRegsIp ≠ 0 then { r with rip := s.rip } else r
  let r := if stateClass &&& pinionThreadStateClassRegsSp ≠ 0 then { r with rsp := s.rsp } else r
  let r := if stateClass &&& pinionThreadStateClassRegsCallee ≠ 0 then
    { r with
      rbx := s.rbx, rbp := s.rbp, r12 := s.r12, r13 := s.r13, r14 := s.r14, r15 := s.r15 }
    else r
  if stateClass &&& pinionThreadStateClassRegsCaller ≠ 0 then
    { r with
      rax := s.rax, rcx := s.rcx, rdx := s.rdx, rdi := s.rdi, rsi := s.rsi, r8 := s.r8,
      r9 := s.r9, r10 := s.r10, r11 := s.r11 }
  else r

def apilogicThreadPushState (k : Kernel) (thread stateClass : BitVec 32) (state : Ptr)
    (s : ThreadState) : Bool × Kernel :=
  if state = 0 then (false, k)
  else
    let tcb := tcbGet k thread
    if tcb = 0 then (false, k)
    else if ¬ (k.tcb tcb).Stopped then (false, k)
    else (true, k.updTcb tcb fun t => { t with regs := pushRegs t.regs stateClass s })

end Thread

section Interrupt

/-- `index` is below four. -/
def tapIndex (index : BitVec 32) (h : index.toNat < 4) : Fin 4 := ⟨index.toNat, h⟩

def apilogicInterruptGetTap (k : Kernel) (index : BitVec 32) : BitVec 32 :=
  if h : index.toNat < 4 then ((k.tcb k.activeTcb).tap (tapIndex index h)).setWidth 32 else 0

def apilogicInterruptReset (k : Kernel) (vec : BitVec 32) : Kernel :=
  let tcb := k.activeTcb
  match slots.find? fun i => ((k.tcb tcb).tap i &&& ~~~0xC000).setWidth 32 = vec with
  | none => k
  | some i =>
    let k := k.updTcb tcb fun t =>
      { t with tap := Function.update t.tap i (t.tap i &&& ~~~0x8000) }
    interruptVectorReset k (vec.setWidth 16)

def apilogicInterruptSetTap (k : Kernel) (index vec : BitVec 32) : Bool × Kernel :=
  let tcb := k.activeTcb
  if h : index.toNat < 4 then
    if vec &&& 0xC000 ≠ 0 then (false, k)
    else
      let i := tapIndex index h
      let k :=
        if (k.tcb tcb).tap i &&& 0x3FFF ≠ 0 then interruptRemoveRoute k tcb ((k.tcb tcb).tap i)
        else k
      let k := k.updTcb tcb fun t => { t with tap := Function.update t.tap i (vec.setWidth 16) }
      let k := interruptAddRoute k tcb ((k.tcb tcb).tap i)
      (true, interruptVectorReset k ((k.tcb tcb).tap i))
  else (false, k)

/-- The 0 of a thread that has to wait is patched when a vector fires. -/
def apilogicInterruptWait (k : Kernel) : BitVec 32 × Kernel :=
  let tcb := k.activeTcb
  match slots.find? fun i => (k.tcb tcb).tap i &&& 0x8000 ≠ 0 with
  | some i => (((k.tcb tcb).tap i &&& ~~~0x8000).setWidth 32, k)
  | none => (0, k.setState tcb tcbStateWaiting)

end Interrupt

section Fault

structure PagefaultInfo where
  thread : BitVec 32
  vaddr : Word
  paddr : Word
  flags : Word

structure MiscfaultInfo where
  thread : BitVec 32
  type : Word
  errcode : Word

structure ZombieInfo where
  thread : BitVec 32

/-- The answer is false where there is no info. -/
def apilogicFaultGetPagefault (k : Kernel) (info : Ptr) : Option PagefaultInfo × Kernel :=
  if info = 0 then (none, k)
  else
    let (tcb, k) := getPagefault k
    if tcb = 0 then (none, k)
    else
      let vaddr := (k.tcb tcb).faultAddr
      (some ⟨(k.tcb tcb).id, vaddr, pcxGetTrans k.paging 0 vaddr, pcxGetFlags k.paging 0 vaddr⟩, k)

def apilogicFaultGetMiscfault (k : Kernel) (info : Ptr) : Option MiscfaultInfo × Kernel :=
  if info = 0 then (none, k)
  else
    let (tcb, k) := getMiscfault k
    if tcb = 0 then (none, k)
    else (some ⟨(k.tcb tcb).id, (k.tcb tcb).ivect.setWidth 64, (k.tcb tcb).error⟩, k)

def apilogicFaultGetZombie (k : Kernel) (info : Ptr) : Option ZombieInfo × Kernel :=
  if info = 0 then (none, k)
  else
    let (tcb, k) := getZombie k
    if tcb = 0 then (none, k) else (some ⟨(k.tcb tcb).id⟩, k)

/-- The deprecated calls of thread.c, which only return the thread id. -/
def apilogicThreadGet (q : TcbQueue) (k : Kernel) : BitVec 32 × Kernel :=
  let (tcb, k) := getQueued k q
  if tcb = 0 then (0, k) else ((k.tcb tcb).id, k)

def apilogicThreadGetPagefault (k : Kernel) : BitVec 32 × Kernel := apilogicThreadGet .pagefault k
def apilogicThreadGetMiscfault (k : Kernel) : BitVec 32 × Kernel := apilogicThreadGet .miscfault k
def apilogicThreadGetZombie (k : Kernel) : BitVec 32 × Kernel := apilogicThreadGet .zombie k

end Fault
end Pinion64
