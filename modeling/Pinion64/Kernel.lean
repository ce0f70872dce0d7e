import Pinion64.Tcb

/-! The data of the kernel: the thread control blocks in memory, the scheduler's list, the three
report queues, the thread table, the interrupt routes and the control block of the one core. -/
namespace Pinion64

/-- The lists of queues.c. -/
inductive TcbQueue
  | pagefault
  | miscfault
  | zombie
  deriving DecidableEq

/-- The functions that init.c enters as on_reset. -/
inductive OnReset
  | irq
  | pinion

/-- The functions that init.c enters as on_fire. -/
inductive OnFire
  | irq

structure Vtable where
  onReset : Option OnReset
  onFire : Option OnFire

/-- A vector page without a route table is not installed. -/
structure VectorPage where
  route : Option (BitVec 7 → Fin 4 → Ptr)
  vtable : Option Vtable

structure Kernel where
  tcb : Ptr → Tcb
  scheduleHead : Ptr
  scheduleTail : Ptr
  queueHead : TcbQueue → Ptr
  /-- Subtables of 512 entries; only the first 128 are in use. -/
  tcbTable : ℕ → Option (ℕ → Ptr)
  tcbTableLock : Bool
  tcbList : Ptr
  /-- The table has 128 entries; what lies behind it in memory is numbered on. -/
  vectorPageTable : ℕ → VectorPage
  activeTcb : Ptr
  activePcx : Ptr
  activePcxId : BitVec 32
  tssRsp0 : Ptr
  tssIst1 : Ptr
  paging : Paging

/-- What the kernel is built into: the pages it can get and the address of `idle_tcb`, which
lies in the pinion image and is no allocated page. -/
structure Platform where
  pages : PageSource
  idleTcb : Ptr
  idle_ne : idleTcb ≠ 0
  idle_page : ∀ k, pages.page k ≠ idleTcb

/-- How a function called from the kernel's entries ends: it returns, it goes on in the idle
loop, or it never ends. -/
inductive Flow
  | resume
  | idle
  | hang
  deriving DecidableEq

namespace Kernel

/-- Change one block. -/
def updTcb (k : Kernel) (p : Ptr) (f : Tcb → Tcb) : Kernel :=
  { k with tcb := Function.update k.tcb p (f (k.tcb p)) }

section UpdTcb
variable (k : Kernel) (p q : Ptr) (f g : Tcb → Tcb)

@[simp] theorem updTcb_self : (k.updTcb p f).tcb p = f (k.tcb p) := by simp [updTcb]

theorem updTcb_of_ne (h : q ≠ p) : (k.updTcb p f).tcb q = k.tcb q := by simp [updTcb, h]

theorem updTcb_tcb : (k.updTcb p f).tcb q = if q = p then f (k.tcb p) else k.tcb q := by
  by_cases h : q = p <;> simp [updTcb, h]

@[simp] theorem updTcb_scheduleHead : (k.updTcb p f).scheduleHead = k.scheduleHead := rfl
@[simp] theorem updTcb_scheduleTail : (k.updTcb p f).scheduleTail = k.scheduleTail := rfl
@[simp] theorem updTcb_queueHead : (k.updTcb p f).queueHead = k.queueHead := rfl
@[simp] theorem updTcb_tcbTable : (k.updTcb p f).tcbTable = k.tcbTable := rfl
@[simp] theorem updTcb_tcbList : (k.updTcb p f).tcbList = k.tcbList := rfl
@[simp] theorem updTcb_vectorPageTable :
    (k.updTcb p f).vectorPageTable = k.vectorPageTable := rfl
@[simp] theorem updTcb_activeTcb : (k.updTcb p f).activeTcb = k.activeTcb := rfl
@[simp] theorem updTcb_paging : (k.updTcb p f).paging = k.paging := rfl

/-- A projection of the blocks that the change respects is the same everywhere. -/
theorem updTcb_proj {β : Type*} (π : Tcb → β) (h : ∀ t, π (f t) = π t) :
    π ((k.updTcb p f).tcb q) = π (k.tcb q) := by
  rw [updTcb_tcb]
  split_ifs with he
  · rw [h, he]
  · rfl

theorem updTcb_updTcb : (k.updTcb p f).updTcb p g = k.updTcb p (g ∘ f) := by
  simp [updTcb]

end UpdTcb

def setState (k : Kernel) (p : Ptr) (s : BitVec 16) : Kernel :=
  k.updTcb p fun t => { t with state := s }

def setNext (k : Kernel) (p q : Ptr) : Kernel := k.updTcb p fun t => { t with next := q }

def setRax (k : Kernel) (p : Ptr) (w : Word) : Kernel :=
  k.updTcb p fun t => { t with regs := { t.regs with rax := w } }

/-- The successor function of the scheduler's list and of the report queues. -/
def next (k : Kernel) (p : Ptr) : Ptr := (k.tcb p).next

/-- The successor function of the free list. -/
def link (k : Kernel) (p : Ptr) : Ptr := (k.tcb p).word0

def state (k : Kernel) (p : Ptr) : BitVec 16 := (k.tcb p).state

section SetState
variable (k : Kernel) (p q : Ptr) (s : BitVec 16)

theorem setState_state : (k.setState p s).state q = if q = p then s else k.state q := by
  rw [state, setState, updTcb_tcb]
  split_ifs <;> rfl

@[simp] theorem setState_next : (k.setState p s).next = k.next := by
  funext x
  exact k.updTcb_proj p x _ Tcb.next fun _ => rfl

@[simp] theorem setState_id : ((k.setState p s).tcb q).id = (k.tcb q).id :=
  k.updTcb_proj p q _ Tcb.id fun _ => rfl

@[simp] theorem setState_tap : ((k.setState p s).tcb q).tap = (k.tcb q).tap :=
  k.updTcb_proj p q _ Tcb.tap fun _ => rfl

theorem setState_link (h : q ≠ p) : (k.setState p s).link q = k.link q := by
  rw [link, setState, updTcb_of_ne _ _ _ _ h]
  rfl

end SetState

section SetRax
variable (k : Kernel) (p q : Ptr) (w : Word)

@[simp] theorem setRax_state : (k.setRax p w).state q = k.state q :=
  k.updTcb_proj p q _ Tcb.state fun _ => rfl

@[simp] theorem setRax_next : (k.setRax p w).next = k.next :=
  funext fun x => k.updTcb_proj p x _ Tcb.next fun _ => rfl

@[simp] theorem setRax_id : ((k.setRax p w).tcb q).id = (k.tcb q).id :=
  k.updTcb_proj p q _ Tcb.id fun _ => rfl

@[simp] theorem setRax_tap : ((k.setRax p w).tcb q).tap = (k.tcb q).tap :=
  k.updTcb_proj p q _ Tcb.tap fun _ => rfl

end SetRax

end Kernel
end Pinion64
