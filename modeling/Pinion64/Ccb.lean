import Pinion64.Pools
import Pinion64.Lib.Bytes

/-! The core control blocks of ccb.s: how a core gets a slot of the table, and with which tables and
pools the search for a free slot comes to an end. -/
namespace Pinion64
open Bytes

/-- `struct ccb`, but for its first word. -/
structure Ccb where
  cstack : Ptr
  istack : Ptr
  activeTcb : Ptr
  activePcx : Ptr
  activePcxId : BitVec 32
  activeRootPcxId : BitVec 32
  self : Ptr
  lapic : Ptr
  deriving DecidableEq

structure Cores where
  /-- LIMIT_CORES slots; what lies behind them in memory is numbered on. -/
  ccbTable : ℕ → Ptr
  ccbTableLock : Bool
  pools : Pools
  ccb : Ptr → Ccb
  /-- The bytes from `gdt` on. -/
  gdt : Memory 64
  tr : BitVec 16
  gsBase : Word
  kernelGsBase : Word
  apicBase : Word
  /-- The slots that the search has read. -/
  slotReads : List ℕ

namespace Cores

/-- The core ID is the lower half of the first word, which links free blocks. -/
def coreId (s : Cores) (p : Ptr) : BitVec 32 := (s.pools.link p).setWidth 32

def setCoreId (s : Cores) (p : Ptr) (id : BitVec 32) : Cores :=
  { s with
    pools.link := Function.update s.pools.link p ((s.pools.link p).extractLsb' 32 32 ++ id) }

def updCcb (s : Cores) (p : Ptr) (f : Ccb → Ccb) : Cores :=
  { s with ccb := Function.update s.ccb p (f (s.ccb p)) }

/-- The search from `.loopa` on: the slot that it finds, or `.faila`. -/
def loopa (limit : Word) : ℕ → Word → Cores → Option (Option Word × Cores)
  | 0, _, _ => none
  | fuel+1, rcx, s =>
    let rdx := s.ccbTable rcx.toNat
    let s := { s with slotReads := rcx.toNat :: s.slotReads }
    if rdx = 0 then some (some rcx, s)
    else if limit ≤ rcx then some (none, s)
    else loopa limit fuel rcx s

def setTss (s : Cores) (rbx tss : Word) : Cores :=
  let rdx := 0x80 + rbx <<< 4
  let gdt := writeLE (n := 2) s.gdt (rdx + 2) (tss.setWidth 16)
  let gdt := writeLE (n := 1) gdt (rdx + 4) ((tss >>> 16).setWidth 8)
  let gdt := writeLE (n := 1) gdt (rdx + 7) ((tss >>> 24).setWidth 8)
  { s with
    gdt := writeLE (n := 4) gdt (rdx + 8) ((tss >>> 32).setWidth 32)
    tr := rbx.setWidth 16 <<< 4 + 0x80 }

/-- The local APIC is enabled; the upper half of its address is lost on the way to pmm_vaddr. -/
def enableApic (s : Cores) : Ptr × Cores :=
  let apicBase := s.apicBase &&& 0xFFFFFF000 ||| 0x800
  (pmmVaddr (apicBase &&& 0xFFFFF000), { s with apicBase })

/-- What is done with the block of the slot in rbx when the lock has been released. -/
def setUp (s : Cores) (rbx : Word) : Ptr × Cores :=
  let rcx := s.ccbTable rbx.toNat
  let s := s.setCoreId rcx (rbx.setWidth 32)
  let s := s.updCcb rcx fun c =>
    { c with
      self := rcx, cstack := rcx + 0x800, istack := rcx + 0xC00
      activeTcb := 0, activePcx := 0, activePcxId := 0, activeRootPcxId := 0 }
  let s := s.setTss rbx (rcx + 0xC00)
  let s := { s with gsBase := rcx, kernelGsBase := rcx }
  let (rax, s) := s.enableApic
  (rax, s.updCcb rcx fun c => { c with lapic := rax })

/-- mutex_acquire returns when the lock has been free, and has taken it. -/
def ccbNew (limit : Word) (fuel : ℕ) (s : Cores) : Option (Ptr × Cores) := do
  match ← loopa limit fuel 0 { s with ccbTableLock := true } with
  | (none, s) => some (0, { s with ccbTableLock := false })
  | (some rbx, s) =>
    let (rax, pools) := s.pools.alloc .ccb
    let s := { s with pools, ccbTable := Function.update s.ccbTable rbx.toNat rax }
    some ({ s with ccbTableLock := false }.setUp rbx)

def ccbGet (limit : Word) (s : Cores) (rdi : Word) : Ptr :=
  if limit ≤ rdi then 0 else s.ccbTable rdi.toNat

def ccbGetSelf (s : Cores) : Ptr := s.ccbTable (s.coreId s.gsBase).toNat

/-- The lowest slot below the limit that is free. -/
structure LowestFree (limit : Word) (s : Cores) (i : Word) : Prop where
  lt : i < limit
  free : s.ccbTable i.toNat = 0
  lowest : ∀ j < i, s.ccbTable j.toNat ≠ 0

/-- The lock is released. With a free slot below the limit, the lowest one has got a new block with
its index as core ID, and no other slot has changed; without one, the answer is NULL, and only slots
of the table have been read. -/
structure Allocates (limit : Word) (s : Cores) (rax : Ptr) (s' : Cores) : Prop where
  unlocked : s'.ccbTableLock = false
  lowest : ∀ i, LowestFree limit s i → s'.ccbGet limit i = (s.pools.alloc .ccb).1 ∧
    s'.ccbGet limit i ≠ 0 ∧ s'.coreId (s'.ccbGet limit i) = i.setWidth 32 ∧
      ∀ j, j ≠ i.toNat → s'.ccbTable j = s.ccbTable j
  full : (∀ i < limit, s.ccbTable i.toNat ≠ 0) →
    rax = 0 ∧ ∀ j ∈ s'.slotReads, j ∈ s.slotReads ∨ j < limit.toNat

variable {limit rbx rcx i : Word} {fuel : ℕ} {s s' : Cores} {p q : Ptr}

section Fields

@[simp] theorem setCoreId_ccbTable {id : BitVec 32} : (s.setCoreId p id).ccbTable = s.ccbTable := rfl
@[simp] theorem updCcb_ccbTable {f : Ccb → Ccb} : (s.updCcb p f).ccbTable = s.ccbTable := rfl
@[simp] theorem updCcb_coreId {f : Ccb → Ccb} : (s.updCcb p f).coreId q = s.coreId q := rfl

theorem low_append (a b : BitVec 32) : (a ++ b).setWidth 32 = b := by
  rw [BitVec.setWidth_append, dif_pos le_rfl, BitVec.setWidth_eq]

@[simp] theorem setCoreId_self {id : BitVec 32} : (s.setCoreId p id).coreId p = id := by
  simp only [coreId, setCoreId, Function.update_self]
  exact low_append _ id

/-- Setting a block up leaves the table and the lock as they are. -/
theorem setUp_table (rbx : Word) (s : Cores) : (s.setUp rbx).2.ccbTable = s.ccbTable ∧
    (s.setUp rbx).2.ccbTableLock = s.ccbTableLock ∧ (s.setUp rbx).2.slotReads = s.slotReads :=
  ⟨rfl, rfl, rfl⟩

theorem setUp_pools : (s.setUp rbx).2.pools =
    (s.setCoreId (s.ccbTable rbx.toNat) (rbx.setWidth 32)).pools := rfl

theorem setUp_coreId : (s.setUp rbx).2.coreId (s.ccbTable rbx.toNat) = rbx.setWidth 32 := by
  rw [coreId, setUp_pools]
  exact setCoreId_self

end Fields

section Search

theorem loopa_free (h : s.ccbTable rcx.toNat = 0) : loopa limit (fuel + 1) rcx s =
    some (some rcx, { s with slotReads := rcx.toNat :: s.slotReads }) :=
  if_pos h

/-- A slot below the limit that is taken is looked at again and again. -/
theorem loopa_taken (h : s.ccbTable rcx.toNat ≠ 0) (hl : rcx < limit) :
    loopa limit fuel rcx s = none := by
  induction fuel generalizing s with
  | zero => rfl
  | succ fuel ih =>
    unfold loopa
    rw [if_neg h, if_neg (BitVec.not_le.mpr hl)]
    exact ih h

end Search

section New

theorem zero_lt_limit (hl : 1 ≤ limit) : 0 < limit := by
  rw [BitVec.le_def] at hl
  rw [BitVec.lt_def]
  exact hl

theorem ccbNew_taken (h : s.ccbTable 0 ≠ 0) (hl : 1 ≤ limit) : ccbNew limit fuel s = none := by
  have hlt := zero_lt_limit hl
  have hloop : loopa limit fuel 0 { s with ccbTableLock := true } = none := loopa_taken h hlt
  simp only [ccbNew, hloop]
  rfl

/-- The machine in which the first slot has got its block. -/
def firstSlot (s : Cores) : Cores :=
  { s with
    pools := (s.pools.alloc .ccb).2
    ccbTable := Function.update s.ccbTable 0 (s.pools.alloc .ccb).1
    ccbTableLock := false
    slotReads := 0 :: s.slotReads }

theorem ccbNew_free (h : s.ccbTable 0 = 0) (hf : 0 < fuel) :
    ccbNew limit fuel s = some (s.firstSlot.setUp 0) := by
  obtain ⟨fuel, rfl⟩ : ∃ k, fuel = k + 1 := ⟨fuel - 1, by omega⟩
  have hloop : loopa limit (fuel + 1) 0 { s with ccbTableLock := true } =
      some (some 0, { s with ccbTableLock := true, slotReads := 0 :: s.slotReads }) := loopa_free h
  simp only [ccbNew, hloop]
  rfl

theorem lowestFree_zero (hl : 1 ≤ limit) (h : s.ccbTable 0 = 0) : LowestFree limit s 0 where
  lt := zero_lt_limit hl
  free := h
  lowest _ hj := absurd hj BitVec.not_lt_zero

theorem LowestFree.eq_zero (hi : LowestFree limit s i) (h : s.ccbTable 0 = 0) : i = 0 := by
  by_contra hne
  exact hi.lowest 0 ((BitVec.pos_iff_ne_zero i).mpr hne) h

end New

/-- The first slot has got the block: this is what ccb_new is for. -/
theorem allocates_first (hl : 1 ≤ limit) (h : s.ccbTable 0 = 0) (hp : (s.pools.alloc .ccb).1 ≠ 0) :
    Allocates limit s (s.firstSlot.setUp 0).1 (s.firstSlot.setUp 0).2 := by
  obtain ⟨htable, hlock, -⟩ := setUp_table 0 s.firstSlot
  have hslot : s.firstSlot.ccbTable 0 = (s.pools.alloc .ccb).1 := by
    change Function.update s.ccbTable 0 (s.pools.alloc .ccb).1 0 = _
    exact Function.update_self ..
  refine ⟨hlock, fun i hi => ?_, fun hfull => ?_⟩
  · obtain rfl := hi.eq_zero h
    have hget : ccbGet limit (s.firstSlot.setUp 0).2 0 = (s.pools.alloc .ccb).1 := by
      rw [ccbGet, if_neg (BitVec.not_le.mpr hi.lt), htable]
      exact hslot
    rw [hget]
    refine ⟨rfl, hp, ?_, fun j hj => ?_⟩
    · rw [← hslot]
      exact setUp_coreId
    · rw [htable]
      exact Function.update_of_ne hj _ _
  · exact absurd h (hfull 0 (zero_lt_limit hl))

/-- ccb_new comes to an end with a slot allocated, or with its answer NULL, if and only if the first
slot is free and there is a block for it. -/
theorem ccb_new_exactly (limit : Word) (s : Cores) (hl : 1 ≤ limit) :
    (∃ n rax s', (∀ fuel, n ≤ fuel → ccbNew limit fuel s = some (rax, s')) ∧
      Allocates limit s rax s') ↔
      s.ccbTable 0 = 0 ∧ (s.pools.list .ccb ≠ 0 ∨ (pmmAlloc s.pools.pmm).1 ≠ 0) := by
  constructor
  · rintro ⟨n, rax, s', hrun, halloc⟩
    have h0 : s.ccbTable 0 = 0 := by
      by_contra hne
      have hnone := hrun n le_rfl
      rw [ccbNew_taken hne hl] at hnone
      exact absurd hnone (by simp)
    obtain ⟨hget, hne, -⟩ := halloc.lowest 0 (lowestFree_zero hl h0)
    exact ⟨h0, Pools.alloc_ne_zero.mp (hget ▸ hne)⟩
  · rintro ⟨h0, hblock⟩
    exact ⟨1, _, _, fun fuel hf => ccbNew_free h0 hf, allocates_first hl h0 (Pools.alloc_ne_zero.mpr hblock)⟩

section Sample

/-- A machine before its first core is set up, with a page left, and a given first slot. -/
def sample (slot : Ptr) : Cores where
  ccbTable j := if j = 0 then slot else 0
  ccbTableLock := false
  pools := ⟨fun _ => 0, fun _ => 0, ⟨base, 0x400000, 0x800000⟩⟩
  ccb _ := ⟨0, 0, 0, 0, 0, 0, 0, 0⟩
  gdt _ := 0
  tr := 0
  gsBase := 0
  kernelGsBase := 0
  apicBase := 0xFEE00900
  slotReads := []

/-- The first core gets its block. -/
theorem ccb_new_exactly_first : ∃ n rax s', ccbNew 1 n (sample 0) = some (rax, s') ∧
    s'.ccbTableLock = false ∧ s'.ccbGet 1 0 = 0xFFFFFFFFC0400000 ∧
      s'.coreId 0xFFFFFFFFC0400000 = 0 := by
  obtain ⟨n, rax, s', hrun, halloc⟩ := (ccb_new_exactly 1 (sample 0) (by decide)).mpr
    ⟨by decide, Or.inr (by decide)⟩
  obtain ⟨hget, -, hid, -⟩ := halloc.lowest 0 (lowestFree_zero (by decide) (by decide))
  have hblock : ((sample 0).pools.alloc .ccb).1 = 0xFFFFFFFFC0400000 := by decide
  rw [hget, hblock] at hid
  exact ⟨n, rax, s', hrun n le_rfl, halloc.unlocked, hget.trans hblock, hid⟩

/-- When the slots are taken, ccb_new does not come to an end. -/
theorem no_slot_never_ends : ¬ ∃ n rax s', (∀ fuel, n ≤ fuel →
    ccbNew 1 fuel (sample 0xFFFFFFFFC0400000) = some (rax, s')) ∧
      Allocates 1 (sample 0xFFFFFFFFC0400000) rax s' := by
  rintro ⟨n, rax, s', hrun, -⟩
  have hnone : ccbNew 1 n (sample 0xFFFFFFFFC0400000) = none := ccbNew_taken (by decide) (by decide)
  exact absurd ((hrun n le_rfl).symm.trans hnone) (by simp)

end Sample

end Cores
end Pinion64
