import Pinion64.Pmm
import Pinion64.Lib.Radix

/-! Four-level page tables as page.c walks, builds and edits them. Tables are named by the
pointers through which the kernel dereferences them. -/
namespace Pinion64
open Radix

def pfPres : Word := 0x1
def pfWrite : Word := 0x2
def pfUser : Word := 0x4
def pfPwt : Word := 0x8
def pfPcd : Word := 0x10
def pfAccs : Word := 0x20
def pfDirty : Word := 0x40
def pfLarge : Word := 0x80
def pfGlobl : Word := 0x100
def pfValid : Word := 0x200
def pfNread : Word := 0x400
def pfNx : Word := 0x8000000000000000
def pfBits : Word := 0x8000000000000FFF

structure Paging where
  mem : Ptr → BitVec 9 → Word
  pcxRoot : Ptr
  /-- How many pages pmm_alloc has been asked for. -/
  pmmTaken : ℕ

/-- `(addr >> (12 + 9 * i)) & 0x1FF`, the index into a table with `i` levels below it. -/
def tableIndex (addr : Word) (i : ℕ) : BitVec 9 := addr.extractLsb' (12+9*i) 9

/-- `(1 << (12 + 9 * i)) - 1`. The shift is on a C int, so `i = 3` would be undefined; no entry
of the root table is ever large. -/
def offsetMask (i : ℕ) : Word := (1 <<< (12+9*i)) - 1

/-- `pt[idx] &~ PF_BITS`, the frame an entry names. -/
def frameOf (e : Word) : Word := e &&& ~~~pfBits

section Allocation
variable (S : PageSource)

/-- pge_free is never called, so the pge list is empty and every page comes from pmm_alloc. -/
def pgeAlloc (p : Paging) : Ptr × Paging :=
  (S.page p.pmmTaken, { p with pmmTaken := p.pmmTaken + 1 })

/-- The loop over the upper half of the root table, for its first `n` slots. -/
def pcxInitUpper : ℕ → Paging → Paging
  | 0, p => p
  | n+1, p =>
    let p := pcxInitUpper n p
    let (pt3, p) := pgeAlloc S p
    let e := (pt3 - base) ||| pfPres ||| pfWrite
    { p with mem := link p.mem p.pcxRoot (BitVec.ofNat 9 (256+n)) e pt3 fun _ => 0 }

def pinionPt2 (i : BitVec 9) : Word :=
  if i.toNat < 256 then
    (i.setWidth 64 <<< 21) ||| pfValid ||| pfPres ||| pfWrite ||| pfLarge ||| pfGlobl
  else
    ((i.setWidth 64 <<< 21) + 0xC0000000)
      ||| pfValid ||| pfPres ||| pfWrite ||| pfLarge ||| pfGlobl ||| pfPcd

def pcxInit (p : Paging) : Paging :=
  let (root, p) := pgeAlloc S p
  let p := { p with pcxRoot := root, mem := Function.update p.mem root fun _ => 0 }
  let p := pcxInitUpper S 256 p
  let (pt2, p) := pgeAlloc S p
  let p := { p with mem := Function.update p.mem pt2 pinionPt2 }
  let pt3 := (p.mem p.pcxRoot 511 + base) &&& ~~~0xFFF
  { p with mem := write p.mem pt3 511 ((pt2 - base) ||| pfPres ||| pfWrite) }

/-- The branch of pcx_set_frame that enters a new table in a slot that is not present. -/
def newTable (p : Paging) (pt : Ptr) (idx : BitVec 9) : Paging :=
  let (newpt, p) := pgeAlloc S p
  let e := (newpt - 0xFFFFFFFFC0000000) ||| pfValid ||| pfPres ||| pfWrite ||| pfUser
  { p with mem := link p.mem pt idx e newpt fun _ => 0 }

/-- The levels from `pt` down, with `i` levels below `pt`; the last one is written. -/
def pcxSetFrameFrom (addr frame flags : Word) : ℕ → Ptr → Paging → ℕ × Paging
  | 0, pt, p => (0, { p with mem := write p.mem pt (tableIndex addr 0) (frame ||| flags) })
  | i+1, pt, p =>
    let idx := tableIndex addr (i+1)
    let p := if p.mem pt idx &&& pfPres = 0 then newTable S p pt idx else p
    if p.mem pt idx &&& pfLarge ≠ 0 then (1, p)
    else pcxSetFrameFrom addr frame flags i (frameOf (p.mem pt idx) + base) p

def pcxSetFrame (p : Paging) (pcx : Ptr) (addr size frame flags : Word) : ℕ × Paging :=
  if size &&& 0xFFF ≠ 0 ∨ addr &&& 0xFFF ≠ 0 then (1, p)
  else pcxSetFrameFrom S addr frame flags 3 (if pcx = 0 then p.pcxRoot else pcx) p

end Allocation

def pmmVaddr (paddr : Word) : Ptr :=
  if paddr < 0x20000000 then paddr + base
  else if 0xE0000000 < paddr ∧ paddr < 0x100000000 then
    paddr - 0xE0000000 + base + 0x20000000
  else 0

/-- The levels from `pt` down, the last argument but one counting them. -/
def pcxGetTransFrom (p : Paging) (addr : Word) : ℕ → Ptr → Word
  | 0, _ => -1
  | i+1, pt =>
    let e := p.mem pt (tableIndex addr i)
    if e &&& pfPres = 0 then -1
    else if e &&& pfLarge ≠ 0 ∨ i = 0 then frameOf e + (addr &&& offsetMask i)
    else pcxGetTransFrom p addr i (frameOf e + base)

def pcxGetTrans (p : Paging) (pcx : Ptr) (addr : Word) : Word :=
  pcxGetTransFrom p addr 4 (if pcx = 0 then p.pcxRoot else pcx)

def pcxGetFlagsFrom (p : Paging) (addr : Word) : ℕ → Ptr → Word
  | 0, _ => 0
  | i+1, pt =>
    let e := p.mem pt (tableIndex addr i)
    if e &&& pfPres = 0 then 0
    else if e &&& pfLarge ≠ 0 ∨ i = 0 then e &&& pfBits
    else pcxGetFlagsFrom p addr i (frameOf e + base)

def pcxGetFlags (p : Paging) (pcx : Ptr) (addr : Word) : Word :=
  pcxGetFlagsFrom p addr 4 (if pcx = 0 then p.pcxRoot else pcx)

end Pinion64
