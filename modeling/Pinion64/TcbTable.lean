import Pinion64.InterruptVector

/-! The table of threads: tcb.c over the block allocator of alloc.s. -/
namespace Pinion64

def tcbLimit : ℕ := 65536

/-- A fresh page passes through the free list, which writes its first word. -/
def tcbAlloc (S : PageSource) (k : Kernel) : Ptr × Kernel :=
  if k.tcbList ≠ 0 then (k.tcbList, { k with tcbList := k.link k.tcbList })
  else
    let (page, p) := pgeAlloc S k.paging
    let k := { k with paging := p }
    if page = 0 then (0, k)
    else
      let k := k.updTcb page fun t => t.setWord0 k.tcbList
      (page, { k with tcbList := k.link page })

def tcbFree (k : Kernel) (tcb : Ptr) : Kernel :=
  { k.updTcb tcb fun t => t.setWord0 k.tcbList with tcbList := tcb }

/-- `tcb_table[i / 512][i % 512]`, or NULL without a subtable. -/
def Kernel.tableEntry (k : Kernel) (i : ℕ) : Ptr :=
  match k.tcbTable (i / 512) with
  | none => 0
  | some subtab => subtab (i % 512)

def Kernel.setTableEntry (k : Kernel) (i : ℕ) (tcb : Ptr) : Kernel :=
  { k with
    tcbTable := Function.update k.tcbTable (i / 512)
      ((k.tcbTable (i / 512)).map fun subtab => Function.update subtab (i % 512) tcb) }

/-- The branch of tcb_new that enters a subtable; the answer tells whether there is one. -/
def tcbSubtable (S : PageSource) (k : Kernel) (i : ℕ) : Bool × Kernel :=
  match k.tcbTable (i / 512) with
  | some _ => (true, k)
  | none =>
    let (subtab, p) := pgeAlloc S k.paging
    let k := { k with paging := p }
    if subtab = 0 then (false, k)
    else (true, { k with
      tcbTable := Function.update k.tcbTable (i / 512) (some fun _ => 0) })

def Tcb.init (t : Tcb) (i : ℕ) : Tcb :=
  { t with
    state := tcbStateSuspended
    id := BitVec.ofNat 32 i
    pcxId := 0
    xstate := 0
    regs := { t.regs with cs := 0x08, ss := 0x10, rflags := 0x200200 } }

/-- The loop of tcb_new with `n` slots left to try. -/
def tcbNewFrom (S : PageSource) (tcb : Ptr) : ℕ → Kernel → Ptr × Kernel
  | 0, k => (0, tcbFree { k with tcbTableLock := false } tcb)
  | n+1, k =>
    let i := tcbLimit - (n+1)
    let (found, k) := tcbSubtable S k i
    if found = false then (0, tcbFree { k with tcbTableLock := false } tcb)
    else if k.tableEntry i = 0 then
      let k := k.setTableEntry i tcb
      let k := k.updTcb tcb fun t => t.init i
      (tcb, { k with tcbTableLock := false })
    else tcbNewFrom S tcb n k

/-- Every path that takes the table lock releases it, so it is never found taken. -/
def tcbNew (S : PageSource) (k : Kernel) : Ptr × Kernel :=
  let (tcb, k) := tcbAlloc S k
  if tcb = 0 then (0, k) else tcbNewFrom S tcb (tcbLimit - 1) { k with tcbTableLock := true }

def tcbDel (k : Kernel) (tcb : Ptr) : Kernel :=
  if tcb = 0 then k
  else if (k.tcb tcb).state = tcbStateFree then k
  else
    let id := (k.tcb tcb).id.toNat
    let k := { k with tcbTableLock := true }
    if tcbLimit ≤ id ∨ k.tcbTable (id / 512) = none then { k with tcbTableLock := false }
    else
      let k := k.setTableEntry id 0
      tcbFree { k with tcbTableLock := false } tcb

def tcbGet (k : Kernel) (threadId : BitVec 32) : Ptr :=
  if tcbLimit ≤ threadId.toNat then 0 else k.tableEntry threadId.toNat

end Pinion64
