import Pinion64.Api
import Pinion64.Lib.Run

/-! The running system: user code, API calls, the yield traps behind them and interrupts, one
event after the other on the one core. An API body and a handler run with interrupts off, so
each is one event. So is a trap here; the way through its gate, behind which interrupts are still
on up to the cli of the stub, is taken apart in Gates. -/
namespace Pinion64

section Fault

/-- `ccb` is the core's own; its LAPIC is not part of the state. -/
def fault (P : Platform) (k : Kernel) (tcb : Ptr) : Kernel × Flow :=
  let t := k.tcb tcb
  if t.ivect = 32 then schedulerSchedule P k
  else if t.ivect = 0x100 then
    let k := if t.regs.rdi = 0 ∧ t.state ≠ tcbStateRunning then (ccbUnloadTcb k).2 else k
    schedulerSchedule P k
  else if t.ivect = 14 then
    let (old, k) := ccbUnloadTcb k
    let k := queuePagefault k old
    let k := interruptVectorFire k pinionInterruptPagefault
    schedulerSchedule P k
  else if t.ivect = 8 then (k, .hang)
  else if t.ivect < 32 then
    let (old, k) := ccbUnloadTcb k
    let k := queueMiscfault k old
    let k := interruptVectorFire k pinionInterruptMiscfault
    schedulerSchedule P k
  else (k, .resume)

/-- The frame that the CPU, the stub and save_state_full leave in the active block. -/
def saveState (k : Kernel) (cpu : Regs) (ivect : BitVec 32) (error : Word) : Kernel :=
  k.updTcb k.activeTcb fun t => { t with regs := cpu, ivect := ivect, saved := 0, error := error }

/-- The vectors for which idt_init builds fault stubs. -/
def faultVectors : List (BitVec 32) := [0, 1, 2, 3, 4, 5, 6, 7, 8, 10, 11, 12, 13, 14, 16, 17, 18, 19]

/-- The stubs made by fault_stub_err. -/
def errorVectors : List (BitVec 32) := [10, 11, 12, 13, 14, 17]

/-- The vectors other than the yield trap that reach a stub. -/
def Installed (v : BitVec 32) : Prop := v ∈ faultVectors ∨ 32 ≤ v ∧ v < 255

instance (v : BitVec 32) : Decidable (Installed v) := by unfold Installed; infer_instance

end Fault

section Calls

/-- The entries of api.s that end in a yield trap. -/
inductive Entry
  | threadYield
  | threadCreate
  | threadPause
  | threadResume
  | threadExit
  | threadPushState
  | interruptWait
  deriving DecidableEq

/-- The code that the entry leaves in rdi for the trap. -/
def Entry.yieldCode : Entry → Word
  | threadYield => 2
  | threadCreate => 1
  | threadPause => 0
  | threadResume => 1
  | threadExit => 0
  | threadPushState => 1
  | interruptWait => 0

inductive Call
  | threadYield
  | threadCreate
  | threadPause (thread : BitVec 32)
  | threadResume (thread : BitVec 32)
  | threadExit
  | threadReap (thread : BitVec 32)
  | threadPullState (thread stateClass : BitVec 32) (state : Ptr) (s : ThreadState)
  | threadPushState (thread stateClass : BitVec 32) (state : Ptr) (s : ThreadState)
  | interruptSetTap (index vec : BitVec 32)
  | interruptGetTap (index : BitVec 32)
  | interruptReset (vec : BitVec 32)
  | interruptWait
  | threadGet (q : TcbQueue)
  | faultGetPagefault (info : Ptr)
  | faultGetMiscfault (info : Ptr)
  | faultGetZombie (info : Ptr)
  | pageSet (vbase pbase flags size : Word)
  | pageGet (vaddr : Word)

def Call.entry : Call → Option Entry
  | threadYield => some .threadYield
  | threadCreate => some .threadCreate
  | threadPause _ => some .threadPause
  | threadResume _ => some .threadResume
  | threadExit => some .threadExit
  | threadPushState .. => some .threadPushState
  | interruptWait => some .interruptWait
  | _ => none

/-- What a call hands back to its caller. -/
inductive Reply
  | none
  | bool (b : Bool)
  | id (i : BitVec 32)
  | state (b : Bool) (s : ThreadState)
  | pagefault (i : Option PagefaultInfo)
  | miscfault (i : Option MiscfaultInfo)
  | zombie (i : Option ZombieInfo)
  | page (c : PageContent)

/-- The part of the answer that rax holds. -/
def Reply.rax (old : Word) : Reply → Word
  | none => old
  | bool b => if b then 1 else 0
  | id i => i.setWidth 64
  | state b _ => if b then 1 else 0
  | pagefault i => if i.isSome then 1 else 0
  | miscfault i => if i.isSome then 1 else 0
  | zombie i => if i.isSome then 1 else 0
  | page c => c.paddr

/-- The body of a call; there is no answer if it never ends. -/
def Call.body (S : PageSource) (k : Kernel) : Call → Option (Reply × Kernel)
  | threadYield => some (.none, apilogicThreadYield k)
  | threadCreate => let (i, k) := apilogicThreadCreate S k; some (.id i, k)
  | threadPause thread => (apilogicThreadPause k thread).map fun (b, k) => (.bool b, k)
  | threadResume thread => let (b, k) := apilogicThreadResume k thread; some (.bool b, k)
  | threadExit => some (.none, apilogicThreadExit k)
  | threadReap thread => let (b, k) := apilogicThreadReap k thread; some (.bool b, k)
  | threadPullState thread stateClass state s =>
    let (b, s) := apilogicThreadPullState k thread stateClass state s; some (.state b s, k)
  | threadPushState thread stateClass state s =>
    let (b, k) := apilogicThreadPushState k thread stateClass state s; some (.bool b, k)
  | interruptSetTap index vec =>
    let (b, k) := apilogicInterruptSetTap k index vec; some (.bool b, k)
  | interruptGetTap index => some (.id (apilogicInterruptGetTap k index), k)
  | interruptReset vec => some (.none, apilogicInterruptReset k vec)
  | interruptWait => let (i, k) := apilogicInterruptWait k; some (.id i, k)
  | threadGet q => let (i, k) := apilogicThreadGet q k; some (.id i, k)
  | faultGetPagefault info =>
    let (i, k) := apilogicFaultGetPagefault k info; some (.pagefault i, k)
  | faultGetMiscfault info =>
    let (i, k) := apilogicFaultGetMiscfault k info; some (.miscfault i, k)
  | faultGetZombie info => let (i, k) := apilogicFaultGetZombie k info; some (.zombie i, k)
  | pageSet vbase pbase flags size =>
    let (b, p) := apilogicPageSet S k.paging vbase pbase flags size
    some (.bool b, { k with paging := p })
  | pageGet vaddr => some (.page (apilogicPageGet k.paging vaddr), k)

end Calls

/-- Where a thread stands: in user code, behind the body of an entry before its trap, or
behind the trap before the return to the caller. -/
inductive Pos
  | user
  | tail (e : Entry)
  | ret (e : Entry)
  deriving DecidableEq

structure Sys where
  kernel : Kernel
  /-- The registers of the core while the active thread runs. -/
  cpu : Regs
  cr2 : Word
  pos : Ptr → Pos
  halted : Bool

inductive Event
  /-- The active thread computes. -/
  | run (regs : Regs)
  | call (c : Call)
  | interrupt (v : BitVec 32) (error cr2 : Word)
  | yield
  | ret

namespace Sys

def active (s : Sys) : Ptr := s.kernel.activeTcb

def setPos (s : Sys) (p : Ptr) (x : Pos) : Sys := { s with pos := Function.update s.pos p x }

/-- Save the active thread, run the handler, load the thread that is active then. The frame of
a double fault, whose error code no stub expects, is shifted by a word; nothing reads it. -/
def enter (P : Platform) (s : Sys) (ivect : BitVec 32) (error : Word) : Sys :=
  let k := saveState s.kernel s.cpu ivect error
  match fault P k k.activeTcb with
  | (k, .resume) => { s with kernel := k, cpu := (k.tcb k.activeTcb).regs }
  | (k, .idle) => { s with kernel := k }.setPos k.activeTcb .user
  | (k, .hang) => { s with kernel := k, halted := true }

/-- A new thread and one whose rip has been pushed continue outside the entries. -/
def leaveEntry (s : Sys) (k : Kernel) : Call → Reply → Sys
  | .threadCreate, .id i => if i = 0 then s else s.setPos (tcbGet k i) .user
  | .threadPushState thread stateClass _ _, .bool true =>
    if stateClass &&& pinionThreadStateClassRegsIp ≠ 0 then s.setPos (tcbGet k thread) .user else s
  | _, _ => s

def call (P : Platform) (s : Sys) (c : Call) : Sys :=
  match c.body P.pages s.kernel with
  | none => { s with halted := true }
  | some (reply, k) =>
    let s := { s with kernel := k, cpu := { s.cpu with rax := reply.rax s.cpu.rax } }
    let s := s.leaveEntry k c reply
    match c.entry with
    | some e => s.setPos s.active (.tail e)
    | none => s

def step (P : Platform) (s : Sys) (e : Event) : Option Sys :=
  if s.halted then none
  else
    match e with
    | .run regs => if s.pos s.active = .user then some { s with cpu := regs } else none
    | .call c =>
      if s.pos s.active = .user ∧ s.active ≠ P.idleTcb then some (s.call P c) else none
    | .interrupt v error cr2 =>
      if Installed v then
        let s := if v = 14 then { s with cr2 := cr2 } else s
        some (s.enter P v (if v ∈ errorVectors then error else 0))
      else none
    | .yield =>
      match s.pos s.active with
      | .user => if s.active ≠ P.idleTcb then some (s.enter P 0x100 0) else none
      | .tail e =>
        let s := { s with cpu := { s.cpu with rdi := e.yieldCode } }
        some ((s.setPos s.active (.ret e)).enter P 0x100 0)
      | .ret _ => none
    | .ret =>
      match s.pos s.active with
      | .ret _ => some (s.setPos s.active .user)
      | _ => none

end Sys

section Boot

/-- What init finds and what it takes from the loader. -/
structure Boot (P : Platform) where
  /-- What the pages hold before they are used as blocks. -/
  ram : Ptr → Tcb
  /-- What lies behind the table of vector pages. -/
  beyond : ℕ → VectorPage
  paging : Paging
  pages : ∀ i < 264, P.pages.page (paging.pmmTaken + i) ≠ 0
  /-- The mappings that load_kernel makes. -/
  load : Paging → Paging
  load_taken : ∀ p, p.pmmTaken ≤ (load p).pmmTaken
  kernelEntry : Word
  kernelStack : Word
  cr2 : Word

def zeroRegs : Regs := ⟨0, 0, 0, 0, 0, 0, 0, 0, 0, 0, 0, 0, 0, 0, 0, 0, 0, 0, 0, 0⟩

/-- A block in the bss section. -/
def zeroTcb : Tcb := ⟨0, 0, 0, fun _ => 0, 0, 0, 0, 0, zeroRegs, 0, 0, 0, 0⟩

variable {P : Platform}

/-- The kernel's data when pcx_init, idt_init and ccb_new have taken their pages. -/
def Boot.start (b : Boot P) : Kernel where
  tcb := Function.update b.ram P.idleTcb zeroTcb
  scheduleHead := 0
  scheduleTail := 0
  queueHead _ := 0
  tcbTable _ := none
  tcbTableLock := false
  tcbList := 0
  vectorPageTable i := if i < 128 then ⟨none, none⟩ else b.beyond i
  activeTcb := 0
  activePcx := 0
  activePcxId := 0
  tssRsp0 := 0
  tssIst1 := 0
  paging := (pgeAlloc P.pages (pgeAlloc P.pages (pcxInit P.pages b.paging)).2).2

def init (b : Boot P) : Kernel :=
  let k := interruptAddVectorPage P.pages b.start 0x0080 ⟨some .pinion, none⟩
  let k := interruptAddVectorPage P.pages k 0x0100 ⟨some .irq, some .irq⟩
  let (tcb, k) := tcbNew P.pages k
  let k := schedulerAddTcb k tcb
  let k := (schedulerSchedule P k).1
  let k := { k with paging := b.load k.paging }
  k.updTcb k.activeTcb fun t =>
    { t with regs := { t.regs with rip := b.kernelEntry, rsp := b.kernelStack } }

/-- The first thread is about to run. -/
def Boot.sys (b : Boot P) : Sys where
  kernel := init b
  cpu := ((init b).tcb (init b).activeTcb).regs
  cr2 := b.cr2
  pos _ := .user
  halted := false

end Boot
end Pinion64
