import Pinion64.Kernel

/-! The functions of scheduler.c, queues.c and ccb.s. -/
namespace Pinion64

section Ccb

/-- The mutex of a block is its lowest byte. -/
def Tcb.unlock (t : Tcb) : Tcb := { t with reserved0 := t.reserved0 &&& 0xFF00 }

def ccbUnloadTcb (k : Kernel) : Ptr × Kernel :=
  if k.activeTcb = 0 then (0, k)
  else (k.activeTcb, { k with activeTcb := 0 }.updTcb k.activeTcb Tcb.unlock)

def pcxGet (k : Kernel) (pcxId : BitVec 32) : Ptr :=
  if pcxId = 0 then k.paging.pcxRoot else 0

def ccbLoadTcb (k : Kernel) (tcb : Ptr) : ℕ × Kernel :=
  if k.activeTcb ≠ 0 then (1, k)
  else
    let k := { k with activeTcb := tcb, tssRsp0 := tcb + 0x100, tssIst1 := tcb + 0x100 }
    let pcxId := (k.tcb tcb).pcxId
    if k.activePcx ≠ 0 ∧ (pcxId = 0 ∨ pcxId = k.activePcxId) then (0, k)
    else (0, { k with activePcxId := pcxId, activePcx := pcxGet k pcxId - base })

end Ccb

section Scheduler

def schedulerPushTcb (k : Kernel) (tcb : Ptr) : Kernel :=
  let k := k.setNext tcb 0
  let k :=
    if k.scheduleTail ≠ 0 then k.setNext k.scheduleTail tcb else { k with scheduleHead := tcb }
  { k with scheduleTail := tcb }

def schedulerPullTcb (k : Kernel) : Ptr × Kernel :=
  let tcb := k.scheduleHead
  let k :=
    if k.scheduleHead ≠ 0 then { k with scheduleHead := k.next k.scheduleHead } else k
  let k := if k.scheduleTail = tcb then { k with scheduleTail := 0 } else k
  (tcb, k)

def schedulerAddTcb (k : Kernel) (tcb : Ptr) : Kernel := schedulerPushTcb k tcb

/-- The search loop from `t` on, for at most `n` turns. -/
def schedulerRemFrom (tcb : Ptr) : ℕ → Ptr → Kernel → Option (ℕ × Kernel)
  | 0, _, _ => none
  | n+1, t, k =>
    if t = 0 then some (1, k)
    else if k.next t = tcb then
      let k := k.setNext t (k.next tcb)
      some (0, if k.scheduleTail = tcb then { k with scheduleTail := t } else k)
    else schedulerRemFrom tcb n (k.next t) k

/-- There are 2^64 pointers, so a search that takes more turns never ends. -/
def schedulerRemTcb (k : Kernel) (tcb : Ptr) : Option (ℕ × Kernel) :=
  if k.scheduleHead = tcb then
    let k := { k with scheduleHead := k.next k.scheduleHead }
    some (0, if k.scheduleTail = tcb then { k with scheduleTail := 0 } else k)
  else schedulerRemFrom tcb (2 ^ 64) k.scheduleHead k

def schedulerSchedule (P : Platform) (k : Kernel) : Kernel × Flow :=
  let (oldTcb, k) := ccbUnloadTcb k
  let k := if oldTcb ≠ 0 then schedulerPushTcb (k.setState oldTcb tcbStateQueued) oldTcb else k
  let (newTcb, k) := schedulerPullTcb k
  if newTcb ≠ 0 then
    ((ccbLoadTcb (k.setState newTcb tcbStateRunning) newTcb).2, .resume)
  else ((ccbLoadTcb k P.idleTcb).2, .idle)

end Scheduler

section Queues

def hasQueued (k : Kernel) (q : TcbQueue) : Bool := k.queueHead q ≠ 0

def getQueued (k : Kernel) (q : TcbQueue) : Ptr × Kernel :=
  let tcb := k.queueHead q
  (tcb, if tcb ≠ 0 then { k with queueHead := Function.update k.queueHead q (k.next tcb) } else k)

def enqueue (k : Kernel) (q : TcbQueue) (tcb : Ptr) : Kernel :=
  let k := k.setNext tcb (k.queueHead q)
  { k with queueHead := Function.update k.queueHead q tcb }

def hasPagefault (k : Kernel) : Bool := hasQueued k .pagefault
def hasMiscfault (k : Kernel) : Bool := hasQueued k .miscfault
def hasZombie (k : Kernel) : Bool := hasQueued k .zombie
def getPagefault (k : Kernel) : Ptr × Kernel := getQueued k .pagefault
def getMiscfault (k : Kernel) : Ptr × Kernel := getQueued k .miscfault
def getZombie (k : Kernel) : Ptr × Kernel := getQueued k .zombie
def queuePagefault (k : Kernel) (tcb : Ptr) : Kernel := enqueue k .pagefault tcb
def queueMiscfault (k : Kernel) (tcb : Ptr) : Kernel := enqueue k .miscfault tcb
def queueZombie (k : Kernel) (tcb : Ptr) : Kernel := enqueue k .zombie tcb

end Queues
end Pinion64
