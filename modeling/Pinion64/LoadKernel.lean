import Pinion64.Relocate
import Pinion64.Objects

/-! load_kernel: the program headers, the dynamic section and the relocations of the kernel image.
The run goes on only while the image is used within its bounds: each `guard` is a read that has to
stay in the object or in what has been loaded of it, a write that has to leave the object as it is
and to go to a page that is mapped, or an operand that has to be in range. -/
namespace Pinion64
open Bytes

/-- The bytes lie in the object. -/
def Obje.Holds (o : Obje) (a : Ptr) (n : ℕ) : Prop := n = 0 ∨ (a - o.base).toNat + n ≤ o.size.toNat

/-- The bytes lie outside the object. -/
def Obje.Spares (o : Obje) (a : Ptr) (n : ℕ) : Prop := n = 0 ∨ Separate a n o.base o.size.toNat

instance (o : Obje) (a : Ptr) (n : ℕ) : Decidable (o.Holds a n) := inferInstanceAs (Decidable (_ ∨ _))

instance (o : Obje) (a : Ptr) (n : ℕ) : Decidable (o.Spares a n) := inferInstanceAs (Decidable (_ ∨ _))

/-- The pages that pge_alloc returns, one after the other, and the page tables at the start. -/
structure PageView where
  /-- What is found in the page. -/
  page : ℕ → Memory 64
  /-- There is a large page for the address. -/
  large : Ptr → Bool
  /-- The address is mapped to memory that nothing else uses. -/
  spare : Ptr → Bool

/-- pcx_set_frame returns without a new frame. -/
def PageView.Refuses (v : PageView) (addr : Ptr) : Prop := addr &&& 0xFFF ≠ 0 ∨ v.large addr = true

instance (v : PageView) (addr : Ptr) : Decidable (v.Refuses addr) :=
  inferInstanceAs (Decidable (_ ∨ _))

structure Loader where
  mem : Memory 64
  pages : ℕ
  /-- The addresses at which pages have been entered. -/
  frames : List Ptr
  /-- The ranges that segments have been loaded to. -/
  loaded : List (Ptr × ℕ)
  /-- The words that relocations have written. -/
  relocated : List Ptr

/-- The bytes lie in the object or have been loaded from it, and no relocation has written them. -/
def Loader.Shows (o : Obje) (s : Loader) (a : Ptr) (n : ℕ) : Prop :=
  ∀ k < n, (o.Holds (a + BitVec.ofNat 64 k) 1 ∨ ∃ r ∈ s.loaded, Within r.1 r.2 (a + BitVec.ofNat 64 k)) ∧
    ∀ t ∈ s.relocated, ¬ Within t 8 (a + BitVec.ofNat 64 k)

instance (o : Obje) (s : Loader) (a : Ptr) (n : ℕ) : Decidable (s.Shows o a n) :=
  inferInstanceAs (Decidable (∀ k < n, _))

def Loader.Mapped (v : PageView) (s : Loader) (x : Ptr) : Prop :=
  v.spare x = true ∨ Canonical x ∧ ∃ a ∈ s.frames, Within a 0x1000 x

instance (v : PageView) (s : Loader) (x : Ptr) : Decidable (s.Mapped v x) :=
  inferInstanceAs (Decidable (_ ∨ _))

/-- The bytes are mapped. -/
def Loader.Writable (v : PageView) (s : Loader) (a : Ptr) (n : ℕ) : Prop :=
  ∀ k < n, s.Mapped v (a + BitVec.ofNat 64 k)

instance (v : PageView) (s : Loader) (a : Ptr) (n : ℕ) : Decidable (s.Writable v a n) :=
  inferInstanceAs (Decidable (∀ k < n, _))

/-- A new page at an address. -/
def Loader.pcxSetFrame (v : PageView) (addr : Ptr) (s : Loader) : Loader :=
  { s with
    mem := if v.Refuses addr then s.mem else fun x =>
      if Within addr 0x1000 x then v.page s.pages x else s.mem x
    pages := s.pages + 1
    frames := if v.Refuses addr then s.frames else addr :: s.frames }

def memcpy (d s : Ptr) : ℕ → Memory 64 → Memory 64
  | 0, m => m
  | n+1, m => Function.update (memcpy d s n m) (d + BitVec.ofNat 64 n)
      (memcpy d s n m (s + BitVec.ofNat 64 n))

def memclr (d : Ptr) : ℕ → Memory 64 → Memory 64
  | 0, m => m
  | n+1, m => Function.update (memclr d n m) (d + BitVec.ofNat 64 n) 0

section Segments

variable (v : PageView) (o : Obje) (kernelBase : Ptr)

/-- The loop over the pages of a segment. -/
def mapSegment (phdr : Ptr) : ℕ → Word → Loader → Option Loader
  | 0, _, _ => none
  | fuel+1, offset, s =>
    let addr := kernelBase + (Phdr.read s.mem phdr).pVaddr + offset
    if offset < (Phdr.read s.mem phdr).pMemsz then do
      guard (v.Refuses addr ∨ o.Spares addr 0x1000)
      mapSegment phdr fuel (offset + 0x1000) (s.pcxSetFrame v addr)
    else some s

def loadSegment (fuel : ℕ) (phdr : Ptr) (s : Loader) : Option Loader := do
  guard (o.Holds (phdr + 8) 16 ∧ o.Holds (phdr + 32) 16)
  let s ← mapSegment v o kernelBase phdr fuel 0 s
  let h := Phdr.read s.mem phdr
  guard (o.Holds (o.base + h.pOffset) h.pFilesz.toNat)
  guard (o.Spares (kernelBase + h.pVaddr) h.pFilesz.toNat ∧
    s.Writable v (kernelBase + h.pVaddr) h.pFilesz.toNat)
  let m := memcpy (kernelBase + h.pVaddr) (o.base + h.pOffset) h.pFilesz.toNat s.mem
  let h := Phdr.read m phdr
  guard (h.pFilesz ≤ h.pMemsz)
  guard (o.Spares (kernelBase + h.pVaddr + h.pFilesz) (h.pMemsz - h.pFilesz).toNat ∧
    s.Writable v (kernelBase + h.pVaddr + h.pFilesz) (h.pMemsz - h.pFilesz).toNat)
  some { s with
    mem := memclr (kernelBase + h.pVaddr + h.pFilesz) (h.pMemsz - h.pFilesz).toNat m
    loaded := (kernelBase + h.pVaddr, h.pMemsz.toNat) :: s.loaded }

def phdrAddr (m : Memory 64) (kernel : Ptr) (i : Word) : Ptr :=
  kernel + (Ehdr.read m kernel).ePhoff + i * (Ehdr.read m kernel).ePhentsize.setWidth 64

/-- The loop over the program headers, which also finds the dynamic section. -/
def loadHeaders : ℕ → Word → Ptr → Loader → Option (Ptr × Loader)
  | 0, _, _, _ => none
  | fuel+1, i, dynamic, s => do
    guard (o.Holds (o.base + 56) 2)
    if i < (Ehdr.read s.mem o.base).ePhnum.setWidth 64 then do
      guard (o.Holds (o.base + 32) 8 ∧ o.Holds (o.base + 54) 2)
      let phdr := phdrAddr s.mem o.base i
      guard (o.Holds phdr 4)
      let s ← if (Phdr.read s.mem phdr).pType = 1 ∨ (Phdr.read s.mem phdr).pType = 2 then
        loadSegment v o kernelBase fuel phdr s else some s
      let dynamic := if (Phdr.read s.mem phdr).pType = 2 then o.base + (Phdr.read s.mem phdr).pOffset
        else dynamic
      loadHeaders fuel (i + 1) dynamic s
    else some (dynamic, s)

end Segments

section Strings

variable (m : Memory 64)

/-- How many characters a comparison reads that stops at the first difference. -/
def matchReads : Ptr → List (BitVec 8) → ℕ
  | _, [] => 0
  | a, b :: bs => if m a = b then matchReads (a + 1) bs + 1 else 1

def Matches : Ptr → List (BitVec 8) → Prop
  | _, [] => True
  | a, b :: bs => m a = b ∧ Matches (a + 1) bs

instance decMatches : ∀ (a : Ptr) (bs : List (BitVec 8)), Decidable (Matches m a bs)
  | _, [] => isTrue trivial
  | a, _ :: bs => haveI := decMatches (a + 1) bs; inferInstanceAs (Decidable (_ ∧ _))

/-- How many characters strcmp reads of its first string. -/
def strcmpReads : Ptr → List (BitVec 8) → ℕ
  | _, [] => 1
  | a, b :: bs => if m a = 0 then 1 else if m a ≠ b then 1 else strcmpReads (a + 1) bs + 1

/-- How many characters api_resolve reads of the name. -/
def resolveReads (symbol : Ptr) : List ApiFunction → ℕ
  | [] => 0
  | f :: fs => max (strcmpReads m symbol f.symbol)
      (if strcmp m symbol f.symbol then resolveReads symbol fs else 0)

/-- The length of a string. -/
def stringLength : ℕ → Ptr → Option ℕ
  | 0, _ => none
  | fuel+1, a => if m a = 0 then some 0 else (stringLength fuel (a + 1)).map (· + 1)

end Strings

section Tables

variable (v : PageView) (p : Pmm) (apientry : ApiFunction → Word) (o : Obje) (kernelBase : Ptr)

def scanDynamic (m : Memory 64) : ℕ → Ptr → Dynamic × Word → Option (Dynamic × Word)
  | 0, _, _ => none
  | fuel+1, a, d => do
    guard (o.Holds a 8)
    if (Dyn.read m a).dTag = 0 then some d
    else do
      guard (o.Holds (a + 8) 8)
      scanDynamic m fuel (a + 16) (collect kernelBase d (Dyn.read m a))

namespace Loader

/-- The memory after a relocation, and the word it has written. -/
def apply (d : Dynamic) (r : Ptr) (s : Loader) : Loader :=
  { s with
    mem := Pinion64.relocate p apientry kernelBase d r s.mem
    relocated := (kernelBase + (Rela.read s.mem r).rOffset) :: s.relocated }

def relocate (d : Dynamic) (r : Ptr) (s : Loader) : Option Loader := do
  guard (s.Shows o (r + 8) 8)
  let rela := Rela.read s.mem r
  if rela.rType = 7 then do
    guard (d.sym ≠ 0)
    let sym := d.sym + d.syment * rela.rSym.setWidth 64
    guard (s.Shows o sym 4)
    let symbol := d.str + (Sym.read s.mem sym).stName.setWidth 64
    guard (s.Shows o symbol (resolveReads s.mem symbol ApiFunction.all))
    guard (s.Shows o r 8 ∧ s.Shows o (r + 16) 8)
    guard (s.Writable v (kernelBase + rela.rOffset) 8)
    some (s.apply p apientry kernelBase d r)
  else if rela.rType = 8 then do
    guard (s.Shows o r 8 ∧ s.Shows o (r + 16) 8)
    guard (s.Writable v (kernelBase + rela.rOffset) 8)
    some (s.apply p apientry kernelBase d r)
  else some s

def relocateAll (d : Dynamic) : ℕ → Word → Loader → Option Loader
  | 0, _, _ => none
  | fuel+1, i, s =>
    if i < d.jmprelsz then do
      relocateAll d fuel (i + d.relent) (← s.relocate v p apientry o kernelBase d (d.jmprel + i))
    else some s

/-- "libpinion.so." -/
def apiString : List (BitVec 8) :=
  [0x6C, 0x69, 0x62, 0x70, 0x69, 0x6E, 0x69, 0x6F, 0x6E, 0x2E, 0x73, 0x6F, 0x2E]

/-- The error report about another API string prints it. -/
def printNeeded (fuel : ℕ) (needed : Ptr) (s : Loader) : Option Unit :=
  if Matches s.mem needed apiString ∨ needed = 0 then some ()
  else do guard (s.Shows o needed ((← stringLength s.mem fuel needed) + 1))

def fixupKernel (fuel : ℕ) (dynamic : Ptr) (s : Loader) : Option Loader := do
  guard (dynamic ≠ 0)
  let (d, neededOff) ← scanDynamic o kernelBase s.mem fuel dynamic ({}, 0)
  guard (d.str ≠ 0)
  let needed := d.str + neededOff
  guard (s.Shows o needed (matchReads s.mem needed apiString))
  printNeeded o fuel needed s
  guard (s.Shows o (needed + 13) 1 ∧ s.Shows o (needed + 15) 1)
  let d := { d with apirev := ((s.mem (needed + 13) - 48) <<< 4) + s.mem (needed + 15) - 48 }
  if d.jmprel = 0 then some s
  else do
    guard (d.relent ≠ 0)
    relocateAll v p apientry o kernelBase d fuel 0 s

end Loader

end Tables

/-- load_kernel stops behind an error report, or it has set the kernel up to be entered. -/
inductive LoadEnd
  | stopped
  | entered (s : Loader) (rip rsp : Word)

def elfMagic : List (BitVec 8) := [0x7F, 0x45, 0x4C, 0x46]

def loadKernel (v : PageView) (p : Pmm) (apientry : ApiFunction → Word) (fuel : ℕ) (k : Config)
    (objl : Objl) (m : Memory 64) : Option LoadEnd := do
  match ← kernelImage k objl with
  | .stop => some .stopped
  | .entry i =>
    let o := objl.entry i
    guard (o.Holds o.base (matchReads m o.base elfMagic))
    if Matches m o.base elfMagic then do
      let kernelBase ← configReadAsPtr k (bytes "loader") (bytes "base") 0xFFFFFFFF00000000
      let (dynamic, s) ← loadHeaders v o kernelBase fuel 0 0 ⟨m, 0, [], [], []⟩
      let s ← s.fixupKernel v p apientry o kernelBase fuel dynamic
      let kernelStack ← configReadAsPtr k (bytes "loader") (bytes "stack") 0xFFFFFFFF80000000
      let s := s.pcxSetFrame v (kernelStack - 0x1000)
      guard (o.Holds (o.base + 24) 8)
      some (.entered s (kernelBase + (Ehdr.read s.mem o.base).eEntry) kernelStack)
    else some .stopped

end Pinion64
