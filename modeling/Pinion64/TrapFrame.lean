import Pinion64.Elf
import Pinion64.System

/-! The frame of an interrupt, byte by byte: the CPU, the stubs of interrupt.s and save_state_full
write it into the block of the active thread, and resume_state_full reads it back. -/
namespace Pinion64
open Bytes

-- Found once and for all, so that the tests on vectors below do not depend on what is imported.
local instance lawfulVector : LawfulBEq (BitVec 32) := inferInstance

section Layout

/-- `struct tcb` at an address. -/
def tcbAt (m : Memory 64) (p : Ptr) : Tcb where
  reserved0 := read16 m p
  state := read16 m (p + 0x02)
  id := read32 m (p + 0x04)
  tap i := read16 m (p + (0x10 + BitVec.ofNat 64 (2 * i)))
  next := read64 m (p + 0x28)
  pcxId := read32 m (p + 0x30)
  faultAddr := read64 m (p + 0x38)
  gs := read64 m (p + 0x40)
  regs := {
    rax := read64 m (p + 0x48)
    rcx := read64 m (p + 0x50)
    rbx := read64 m (p + 0x58)
    rdx := read64 m (p + 0x60)
    rdi := read64 m (p + 0x68)
    rsi := read64 m (p + 0x70)
    rbp := read64 m (p + 0x78)
    r8 := read64 m (p + 0x80)
    r9 := read64 m (p + 0x88)
    r10 := read64 m (p + 0x90)
    r11 := read64 m (p + 0x98)
    r12 := read64 m (p + 0xA0)
    r13 := read64 m (p + 0xA8)
    r14 := read64 m (p + 0xB0)
    r15 := read64 m (p + 0xB8)
    rip := read64 m (p + 0xD8)
    cs := read64 m (p + 0xE0)
    rflags := read64 m (p + 0xE8)
    rsp := read64 m (p + 0xF0)
    ss := read64 m (p + 0xF8) }
  xstate := read64 m (p + 0xC0)
  ivect := read32 m (p + 0xC8)
  saved := read32 m (p + 0xCC)
  error := read64 m (p + 0xD0)

end Layout

section Stubs

/-- The gates of the IDT; both name IST1 and the kernel's code segment. -/
inductive Gate
  /-- 0x8F01 -/
  | trap
  /-- 0x8E01 -/
  | irq

/-- The bits of RFLAGS that the CPU clears on its way through a gate: TF, NT, RF and VM, and IF for
an interrupt gate. -/
def Gate.clears : Gate → Word
  | trap => 0x34100
  | irq => 0x34300

structure Cpu where
  mem : Memory 64
  regs : Regs

namespace Cpu

def push (c : Cpu) (w : Word) : Cpu where
  mem := write64 c.mem (c.regs.rsp - 8) w
  regs := { c.regs with rsp := c.regs.rsp - 8 }

def cli (c : Cpu) : Cpu := { c with regs := { c.regs with rflags := c.regs.rflags &&& ~~~0x200 } }

/-- The CPU enters a gate, without a change of privilege. -/
def enterGate (gate : Gate) (ist1 : Ptr) (entry : Word) (error : Option Word) (c : Cpu) : Cpu :=
  let r := c.regs
  let c := { c with regs := { r with rsp := ist1 &&& ~~~0xF } }
  let c := (c.push r.ss).push r.rsp
  let c := ((c.push r.rflags).push r.cs).push r.rip
  let c :=
    match error with
    | some e => c.push e
    | none => c
  { c with regs := { c.regs with rip := entry, cs := 0x08, rflags := r.rflags &&& ~~~gate.clears } }

def faultStubErr (v : BitVec 32) (c : Cpu) : Cpu := c.cli.push (v.setWidth 64)

def faultStubNoerr (v : BitVec 32) (c : Cpu) : Cpu := (c.cli.push 0).push (v.setWidth 64)

def irqStub (v : BitVec 32) (c : Cpu) : Cpu := faultStubNoerr v c

/-- `yield` -/
def yieldStub (c : Cpu) : Cpu := faultStubNoerr 0x100 c

/-- The stub that is entered for a vector. -/
def stub (v : BitVec 32) (c : Cpu) : Cpu :=
  if v = 0x100 then yieldStub c
  else if 32 ≤ v then irqStub v c
  else if v ∈ errorVectors then faultStubErr v c
  else faultStubNoerr v c

/-- The memory when fault is called, and its first argument. -/
def saveStateFull (c : Cpu) : Memory 64 × Ptr :=
  let rsp := c.regs.rsp - 0x88
  let m := write64 c.mem (rsp + 0x08) c.regs.rax
  let m := write64 m (rsp + 0x10) c.regs.rcx
  let m := write64 m (rsp + 0x18) c.regs.rbx
  let m := write64 m (rsp + 0x20) c.regs.rdx
  let m := write64 m (rsp + 0x28) c.regs.rdi
  let m := write64 m (rsp + 0x30) c.regs.rsi
  let m := write64 m (rsp + 0x38) c.regs.rbp
  let m := write64 m (rsp + 0x40) c.regs.r8
  let m := write64 m (rsp + 0x48) c.regs.r9
  let m := write64 m (rsp + 0x50) c.regs.r10
  let m := write64 m (rsp + 0x58) c.regs.r11
  let m := write64 m (rsp + 0x60) c.regs.r12
  let m := write64 m (rsp + 0x68) c.regs.r13
  let m := write64 m (rsp + 0x70) c.regs.r14
  let m := write64 m (rsp + 0x78) c.regs.r15
  (m, rsp - 0x40)

end Cpu

/-- The registers that are loaded for the active block, the last five by iretq. -/
def resumeStateFull (m : Memory 64) (active : Ptr) : Regs :=
  let rsp := active + 0x40
  let frame := rsp + 0x98
  { rax := read64 m (rsp + 0x08)
    rcx := read64 m (rsp + 0x10)
    rbx := read64 m (rsp + 0x18)
    rdx := read64 m (rsp + 0x20)
    rdi := read64 m (rsp + 0x28)
    rsi := read64 m (rsp + 0x30)
    rbp := read64 m (rsp + 0x38)
    r8 := read64 m (rsp + 0x40)
    r9 := read64 m (rsp + 0x48)
    r10 := read64 m (rsp + 0x50)
    r11 := read64 m (rsp + 0x58)
    r12 := read64 m (rsp + 0x60)
    r13 := read64 m (rsp + 0x68)
    r14 := read64 m (rsp + 0x70)
    r15 := read64 m (rsp + 0x78)
    rip := read64 m frame
    cs := read64 m (frame + 0x08)
    rflags := read64 m (frame + 0x10)
    rsp := read64 m (frame + 0x18)
    ss := read64 m (frame + 0x20) }

end Stubs

section Block

/-- The five registers of a frame replaced. -/
def Regs.withFrame (r f : Regs) : Regs :=
  { r with rip := f.rip, cs := f.cs, rflags := f.rflags, rsp := f.rsp, ss := f.ss }

/-- What the CPU pushes into a block. -/
def Tcb.pushFrame (t : Tcb) (cpu : Regs) (error : Option Word) : Tcb :=
  { t with regs := t.regs.withFrame cpu, error := error.getD t.error }

/-- What the stub and save_state_full add. -/
def Tcb.saveStub (t : Tcb) (cpu : Regs) (v : BitVec 32) : Tcb :=
  { t with
    regs := cpu.withFrame t.regs
    ivect := v
    saved := 0
    error := if v ∈ errorVectors then t.error else 0 }

end Block

variable {m m' : Memory 64} {p q : Ptr} {c : Cpu} {v : BitVec 32} {error : Option Word}

section Offsets

theorem down (p o : Word) (n : Word) : p + o - n = p + (o - n) := by ring

theorem up (p o : Word) (n : Word) : p + o + n = p + (o + n) := by ring

theorem aligned_stack (h : p.toNat % 16 = 0) : (p + 0x100) &&& ~~~0xF = p + 0x100 := by
  have hlow : (p + 0x100) &&& 0xF = 0 := by
    apply BitVec.eq_of_toNat_eq
    rw [BitVec.toNat_and]
    change (p + 0x100).toNat &&& (2 ^ 4 - 1) = 0
    rw [Nat.and_two_pow_sub_one_eq_mod]
    bv_omega
  have hsplit : (p + 0x100) &&& (0xF ||| ~~~0xF) = p + 0x100 := by
    rw [show (0xF : Word) ||| ~~~0xF = BitVec.allOnes 64 by decide, BitVec.and_allOnes]
  rw [BitVec.and_or_distrib_left, hlow] at hsplit
  simpa using hsplit

end Offsets

section Fields

variable {lo hi : ℕ} {o : Word}

theorem same_read64 (h : SameBut p lo hi m m') (ho : o.toNat + 8 ≤ lo ∨ hi ≤ o.toNat)
    (hk : o.toNat + 8 ≤ 2 ^ 64) : read64 m' (p + o) = read64 m (p + o) :=
  h.readLE hk ho

theorem same_read32 (h : SameBut p lo hi m m') (ho : o.toNat + 4 ≤ lo ∨ hi ≤ o.toNat)
    (hk : o.toNat + 4 ≤ 2 ^ 64) : read32 m' (p + o) = read32 m (p + o) :=
  h.readLE hk ho

theorem same_read16 (h : SameBut p lo hi m m') (ho : o.toNat + 2 ≤ lo ∨ hi ≤ o.toNat)
    (hk : o.toNat + 2 ≤ 2 ^ 64) : read16 m' (p + o) = read16 m (p + o) :=
  h.readLE hk ho

/-- What lies before the saved registers. -/
theorem tcbAt_head (h : SameBut p lo hi m m') (hlo : 0x48 ≤ lo) :
    tcbAt m' p = { tcbAt m p with
      regs := (tcbAt m' p).regs
      xstate := (tcbAt m' p).xstate
      ivect := (tcbAt m' p).ivect
      saved := (tcbAt m' p).saved
      error := (tcbAt m' p).error } := by
  have h0 : read16 m' p = read16 m p := by
    have h := same_read16 (o := 0) h (Or.inl (by simp; omega)) (by decide)
    simpa using h
  have htap : ∀ i : Fin 4, read16 m' (p + (0x10 + BitVec.ofNat 64 (2 * i))) =
      read16 m (p + (0x10 + BitVec.ofNat 64 (2 * i))) := by
    intro i
    have hi : (0x10 + BitVec.ofNat 64 (2 * i) : Word).toNat ≤ 0x16 := by
      revert i
      decide
    exact same_read16 h (Or.inl (by omega)) (by omega)
  have h16 : ∀ o : Word, o.toNat + 2 ≤ 0x48 → read16 m' (p + o) = read16 m (p + o) :=
    fun o ho => same_read16 h (Or.inl (by omega)) (by omega)
  have h32 : ∀ o : Word, o.toNat + 4 ≤ 0x48 → read32 m' (p + o) = read32 m (p + o) :=
    fun o ho => same_read32 h (Or.inl (by omega)) (by omega)
  have h64 : ∀ o : Word, o.toNat + 8 ≤ 0x48 → read64 m' (p + o) = read64 m (p + o) :=
    fun o ho => same_read64 h (Or.inl (by omega)) (by omega)
  simp only [tcbAt, h0, htap, h16 0x02 (by decide), h32 0x04 (by decide), h64 0x28 (by decide),
    h32 0x30 (by decide), h64 0x38 (by decide), h64 0x40 (by decide)]

variable {l : List (Word × BitVec (8 * 8))} {L : List Word}

/-- Words that are written apart from each other are all read back. -/
theorem read64_words (hL : l.map Prod.fst = L) (hp : L.Pairwise (Beside 8 · 8))
    (hk : ∀ o ∈ L, o.toNat + 8 ≤ 2 ^ 64) :
    ∀ x ∈ l, read64 (writeAll m p l) (p + x.1) = x.2 := by
  subst hL
  exact fun x hx => readLE_writeAll hx hp hk

theorem sameBut_words (hL : l.map Prod.fst = L)
    (h : ∀ o ∈ L, lo ≤ o.toNat ∧ o.toNat + 8 ≤ hi) (hk : hi ≤ 2 ^ 64) :
    SameBut p lo hi m (writeAll m p l) := by
  subst hL
  exact sameBut_writeAll h hk

end Fields

section Gate

/-- What the CPU writes on its way through a gate, by the offsets from the block. -/
def frameWords (r : Regs) : List (Word × BitVec (8 * 8)) :=
  [(0xF8, r.ss), (0xF0, r.rsp), (0xE8, r.rflags), (0xE0, r.cs), (0xD8, r.rip)]

def errorWords : Option Word → List (Word × BitVec (8 * 8))
  | some e => [(0xD0, e)]
  | none => []

theorem enterGate_eq (gate : Gate) (entry : Word) (error : Option Word)
    (h : p.toNat % 16 = 0) : c.enterGate gate (p + 0x100) entry error =
      { mem := writeAll c.mem p (frameWords c.regs ++ errorWords error)
        regs := { c.regs with
          rip := entry
          cs := 0x08
          rflags := c.regs.rflags &&& ~~~gate.clears
          rsp := p + if error.isSome then 0xD0 else 0xD8 } } := by
  cases error with
  | none =>
    simp only [Cpu.enterGate, Cpu.push, aligned_stack h, down]
    rfl
  | some e =>
    simp only [Cpu.enterGate, Cpu.push, aligned_stack h, down]
    rfl

theorem errorWords_offsets (r : Regs) (error : Option Word) :
    (frameWords r ++ errorWords error).map Prod.fst =
      [0xF8, 0xF0, 0xE8, 0xE0, 0xD8] ++ if error.isSome then [0xD0] else [] := by
  cases error <;> rfl

theorem sameBut_frameWords (r : Regs) (error : Option Word) :
    SameBut p 0xD0 0x100 m (writeAll m p (frameWords r ++ errorWords error)) := by
  refine sameBut_words (errorWords_offsets r error) ?_ (by simp)
  cases error <;> simp

theorem enterGate_mem (gate : Gate) (entry : Word) (error : Option Word)
    (h : p.toNat % 16 = 0) : (c.enterGate gate (p + 0x100) entry error).mem =
      writeAll c.mem p (frameWords c.regs ++ errorWords error) := by
  rw [enterGate_eq gate entry error h]

theorem sameBut_enterGate (gate : Gate) (entry : Word) (error : Option Word)
    (h : p.toNat % 16 = 0) :
    SameBut p 0xD0 0x100 c.mem (c.enterGate gate (p + 0x100) entry error).mem := by
  rw [SameBut, enterGate_mem gate entry error h]
  exact sameBut_frameWords c.regs error

/-- The gate pushes the frame into the block below the stack. -/
theorem tcbAt_enterGate (gate : Gate) (entry : Word) (error : Option Word)
    (h : p.toNat % 16 = 0) :
    tcbAt (c.enterGate gate (p + 0x100) entry error).mem p =
      (tcbAt c.mem p).pushFrame c.regs error := by
  have hsame : SameBut p 0xD0 0x100 c.mem _ := sameBut_frameWords c.regs error
  rw [enterGate_eq gate entry error h]
  have hw := read64_words (m := c.mem) (p := p) (errorWords_offsets c.regs error)
    (by cases error <;> simp [Beside]) (by cases error <;> simp)
  cases error with
  | none =>
    have hnone : SameBut p 0xD8 0x100 c.mem _ :=
      sameBut_words (errorWords_offsets c.regs none) (by simp) (by simp)
    generalize writeAll c.mem p (frameWords c.regs ++ errorWords none) = m' at hw hnone ⊢
    simp only [frameWords, errorWords, List.append_nil, List.forall_mem_cons] at hw
    rw [tcbAt_head hnone (by decide)]
    simp (disch := decide) only [tcbAt, Tcb.pushFrame, Regs.withFrame, Option.getD_none, hw,
      same_read64 hnone, same_read32 hnone]
  | some e =>
    generalize writeAll c.mem p (frameWords c.regs ++ errorWords (some e)) = m' at hw hsame ⊢
    simp only [frameWords, errorWords, List.cons_append, List.nil_append, List.forall_mem_cons] at hw
    rw [tcbAt_head hsame (by decide)]
    simp (disch := decide) only [tcbAt, Tcb.pushFrame, Regs.withFrame, Option.getD_some, hw,
      same_read64 hsame, same_read32 hsame]

end Gate

section Save

/-- What the stub pushes. -/
def vectorWords (v : BitVec 32) : List (Word × BitVec (8 * 8)) :=
  if v ∈ errorVectors then [(0xC8, v.setWidth 64)] else [(0xD0, 0), (0xC8, v.setWidth 64)]

theorem errorVectors_lt (h : v ∈ errorVectors) : v ≠ 0x100 ∧ ¬ 32 ≤ v := by
  simp only [errorVectors, List.mem_cons, List.not_mem_nil, or_false] at h
  rcases h with rfl | rfl | rfl | rfl | rfl | rfl <;> decide

/-- Every stub ends with the vector on the stack, and a word for the error below it. -/
theorem stub_eq (h : c.regs.rsp = p + if v ∈ errorVectors then 0xD0 else 0xD8) :
    c.stub v = {
      mem := writeAll c.mem p (vectorWords v)
      regs := { c.regs with rflags := c.regs.rflags &&& ~~~0x200, rsp := p + 0xC8 } } := by
  by_cases hv : v ∈ errorVectors
  · obtain ⟨h1, h2⟩ := errorVectors_lt hv
    rw [if_pos hv] at h
    simp only [Cpu.stub, if_neg h1, if_neg h2, if_pos hv, vectorWords, Cpu.faultStubErr, Cpu.cli,
      Cpu.push, h, down]
    rfl
  · rw [if_neg hv] at h
    have hstub : c.stub v = c.faultStubNoerr v := by
      unfold Cpu.stub
      split_ifs with h1
      · rw [h1]
        rfl
      · rfl
      · rfl
    simp only [hstub, if_neg hv, vectorWords, Cpu.faultStubNoerr, Cpu.cli, Cpu.push, h, down]
    rfl

theorem vector_low (v : BitVec 32) : (v.setWidth 64 : Word).extractLsb' 0 32 = v := by
  apply BitVec.eq_of_getLsbD_eq
  intro i hi
  simp [hi, show i < 64 by omega]

theorem vector_high (v : BitVec 32) : (v.setWidth 64 : Word).extractLsb' 32 32 = 0 := by
  apply BitVec.eq_of_getLsbD_eq
  intro i hi
  simp

theorem vectorWords_offsets (v : BitVec 32) :
    (vectorWords v).map Prod.fst = if v ∈ errorVectors then [0xC8] else [0xD0, 0xC8] := by
  unfold vectorWords
  split_ifs <;> rfl

theorem vectorWords_apart (v : BitVec 32) :
    (if v ∈ errorVectors then [0xC8] else [0xD0, 0xC8] : List Word).Pairwise (Beside 8 · 8) ∧
      ∀ o ∈ (if v ∈ errorVectors then [0xC8] else [0xD0, 0xC8] : List Word),
        o.toNat + 8 ≤ 2 ^ 64 := by
  split_ifs <;> simp [Beside]

/-- The word of the vector is ivect and saved. -/
theorem vectorWords_ivect : read32 (writeAll m p (vectorWords v)) (p + 0xC8) = v ∧
    read32 (writeAll m p (vectorWords v)) (p + 0xCC) = 0 := by
  have hmem : ((0xC8, v.setWidth 64) : Word × BitVec (8 * 8)) ∈ vectorWords v := by
    unfold vectorWords
    split_ifs <;> simp
  obtain ⟨hp, hk⟩ := vectorWords_apart v
  rw [← vectorWords_offsets] at hp hk
  constructor
  · have h := readLE_writeAll_part (m := m) (a := p) (i := 0) (k := 4) hmem hp hk (by omega)
    rw [BitVec.add_zero] at h
    exact h.trans (vector_low v)
  · have h := readLE_writeAll_part (m := m) (a := p) (i := 4) (k := 4) hmem hp hk (by omega)
    rw [up] at h
    exact h.trans (vector_high v)

theorem sameBut_stub (h : c.regs.rsp = p + if v ∈ errorVectors then 0xD0 else 0xD8) :
    SameBut p 0xC8 (if v ∈ errorVectors then 0xD0 else 0xD8) c.mem (c.stub v).mem := by
  rw [stub_eq h]
  refine sameBut_words (vectorWords_offsets v) ?_ ?_
  · split_ifs <;> simp
  · split_ifs <;> simp

theorem tcbAt_stub (h : c.regs.rsp = p + if v ∈ errorVectors then 0xD0 else 0xD8) :
    tcbAt (c.stub v).mem p = { tcbAt c.mem p with
      ivect := v
      saved := 0
      error := if v ∈ errorVectors then (tcbAt c.mem p).error else 0 } := by
  have hsame := sameBut_stub h
  rw [stub_eq h] at hsame ⊢
  obtain ⟨hivect, hsaved⟩ := vectorWords_ivect (m := c.mem) (p := p) (v := v)
  have herror : v ∉ errorVectors → read64 (writeAll c.mem p (vectorWords v)) (p + 0xD0) = 0 := by
    intro hv
    obtain ⟨hp, hk⟩ := vectorWords_apart v
    refine read64_words (vectorWords_offsets v) hp hk (0xD0, 0) ?_
    rw [vectorWords, if_neg hv]
    exact List.mem_cons_self ..
  generalize writeAll c.mem p (vectorWords v) = m' at hivect hsaved herror hsame ⊢
  rw [tcbAt_head hsame (by decide)]
  by_cases hv : v ∈ errorVectors
  · rw [if_pos hv] at hsame
    simp (disch := decide) only [tcbAt, hivect, hsaved, if_pos hv, same_read64 hsame]
  · rw [if_neg hv] at hsame
    simp (disch := decide) only [tcbAt, hivect, hsaved, herror hv, if_neg hv, same_read64 hsame]

/-- What save_state_full stores. -/
def regWords (r : Regs) : List (Word × BitVec (8 * 8)) :=
  [(0x48, r.rax), (0x50, r.rcx), (0x58, r.rbx), (0x60, r.rdx), (0x68, r.rdi), (0x70, r.rsi),
    (0x78, r.rbp), (0x80, r.r8), (0x88, r.r9), (0x90, r.r10), (0x98, r.r11), (0xA0, r.r12),
    (0xA8, r.r13), (0xB0, r.r14), (0xB8, r.r15)]

theorem regWords_offsets (r : Regs) : (regWords r).map Prod.fst =
    [0x48, 0x50, 0x58, 0x60, 0x68, 0x70, 0x78, 0x80, 0x88, 0x90, 0x98, 0xA0, 0xA8, 0xB0, 0xB8] := rfl

/-- The stores go to the saved registers of the block, which is the argument of fault. -/
theorem saveStateFull_eq (h : c.regs.rsp = p + 0xC8) :
    c.saveStateFull = (writeAll c.mem p (regWords c.regs), p) := by
  have hp : p + (0xC8 - 0x88 - 0x40) = p := by ring
  simp only [Cpu.saveStateFull, h, down, up, hp]
  rfl

theorem sameBut_saveStateFull (h : c.regs.rsp = p + 0xC8) :
    SameBut p 0x48 0xC0 c.mem c.saveStateFull.1 := by
  rw [saveStateFull_eq h]
  exact sameBut_words (regWords_offsets c.regs) (by simp) (by simp)

theorem tcbAt_saveStateFull (h : c.regs.rsp = p + 0xC8) :
    tcbAt c.saveStateFull.1 p =
      { tcbAt c.mem p with regs := c.regs.withFrame (tcbAt c.mem p).regs } := by
  have hsame := sameBut_saveStateFull h
  rw [saveStateFull_eq h] at hsame ⊢
  have hw := read64_words (m := c.mem) (p := p) (regWords_offsets c.regs) (by simp [Beside]) (by simp)
  generalize writeAll c.mem p (regWords c.regs) = m' at hw hsame ⊢
  simp only [regWords, List.forall_mem_cons] at hw
  rw [tcbAt_head hsame (by decide)]
  simp (disch := decide) only [tcbAt, Regs.withFrame, hw, same_read64 hsame, same_read32 hsame]

/-- The stub and save_state_full complete the frame; nothing but the block changes, from the saved
registers on. -/
theorem tcbAt_save (h : c.regs.rsp = p + if v ∈ errorVectors then 0xD0 else 0xD8) :
    tcbAt (c.stub v).saveStateFull.1 p = (tcbAt c.mem p).saveStub c.regs v ∧
      (c.stub v).saveStateFull.2 = p ∧ SameBut p 0x48 0x100 c.mem (c.stub v).saveStateFull.1 := by
  have hrsp : (c.stub v).regs.rsp = p + 0xC8 := by rw [stub_eq h]
  refine ⟨?_, ?_, ?_⟩
  · rw [tcbAt_saveStateFull hrsp, tcbAt_stub h, stub_eq h]
    rfl
  · rw [saveStateFull_eq hrsp]
  · refine ((sameBut_stub h).mono (by decide) ?_).trans
      ((sameBut_saveStateFull hrsp).mono (by decide) (by decide))
    split_ifs <;> decide

end Save

section Trap

/-- The error code that the CPU pushes: with the vectors of fault_stub_err and with a double fault. -/
def cpuError (v : BitVec 32) (error : Word) : Option Word :=
  if v ∈ errorVectors ∨ v = 8 then some error else none

/-- From the gate to the call of fault. -/
def Cpu.trap (gate : Gate) (ist1 : Ptr) (entry : Word) (v : BitVec 32) (error : Word) (c : Cpu) :
    Memory 64 × Ptr :=
  ((c.enterGate gate ist1 entry (cpuError v error)).stub v).saveStateFull

/-- The offsets of resume_state_full are those of the block. -/
theorem resumeStateFull_eq (m : Memory 64) (p : Ptr) : resumeStateFull m p = (tcbAt m p).regs := by
  simp only [resumeStateFull, tcbAt, up]
  rfl

theorem cpuError_isSome (h8 : v ≠ 8) (error : Word) :
    (cpuError v error).isSome = decide (v ∈ errorVectors) := by
  unfold cpuError
  by_cases hv : v ∈ errorVectors
  · rw [if_pos (Or.inl hv), decide_eq_true hv]
    rfl
  · rw [if_neg (by tauto), decide_eq_false hv]
    rfl

/-- The registers with which the stub of a gate begins. -/
theorem enterGate_regs (gate : Gate) (entry error : Word) (h : p.toNat % 16 = 0) (h8 : v ≠ 8) :
    (c.enterGate gate (p + 0x100) entry (cpuError v error)).regs =
      { c.regs with
        rip := entry
        cs := 0x08
        rflags := c.regs.rflags &&& ~~~gate.clears
        rsp := p + if v ∈ errorVectors then 0xD0 else 0xD8 } := by
  rw [enterGate_eq gate entry _ h]
  simp only [cpuError_isSome h8, decide_eq_true_eq]

/-- The frame of a trap is the interrupted state, in the block that fault is given. -/
theorem trap_frame (gate : Gate) (entry error : Word) (h : p.toNat % 16 = 0) (h8 : v ≠ 8) :
    tcbAt (c.trap gate (p + 0x100) entry v error).1 p = { tcbAt c.mem p with
        regs := c.regs
        ivect := v
        saved := 0
        error := if v ∈ errorVectors then error else 0 } ∧
      (c.trap gate (p + 0x100) entry v error).2 = p ∧
      SameBut p 0x48 0x100 c.mem (c.trap gate (p + 0x100) entry v error).1 := by
  have hregs := enterGate_regs (c := c) gate entry error h h8
  have hsame := sameBut_enterGate (c := c) gate entry (cpuError v error) h
  have hgate := tcbAt_enterGate (c := c) gate entry (cpuError v error) h
  rw [Cpu.trap]
  generalize c.enterGate gate (p + 0x100) entry (cpuError v error) = d at hregs hsame hgate ⊢
  obtain ⟨hblock, harg, hrest⟩ := tcbAt_save (c := d) (p := p) (v := v) (by rw [hregs])
  refine ⟨?_, harg, (hsame.mono (by decide) le_rfl).trans hrest⟩
  rw [hblock, hgate, hregs, Tcb.saveStub, Tcb.pushFrame, cpuError]
  by_cases hv : v ∈ errorVectors
  · simp only [if_pos hv, if_pos (Or.inl hv : v ∈ errorVectors ∨ v = 8), Option.getD_some]
    rfl
  · simp only [if_neg hv]
    rfl

/-- Between the gate and resume_state_full the state of the interrupted thread makes a round trip
through its block, whatever the vector. A double fault is not resumed: its frame begins a word too
low, but fault still finds its vector. -/
theorem trap_round_trip (c : Cpu) (p : Ptr) (gate : Gate) (entry error : Word) (v : BitVec 32)
    (h : p.toNat % 16 = 0) :
    (v ≠ 8 →
      let r := c.trap gate (p + 0x100) entry v error
      r.2 = p ∧ resumeStateFull r.1 p = c.regs ∧ SameBut p 0x48 0x100 c.mem r.1 ∧
        tcbAt r.1 p = { tcbAt c.mem p with
          regs := c.regs
          ivect := v
          saved := 0
          error := if v ∈ errorVectors then error else 0 }) ∧
    (c.trap gate (p + 0x100) entry 8 error).2 = p - 8 ∧
    (tcbAt (c.trap gate (p + 0x100) entry 8 error).1 (p - 8)).ivect = 8 := by
  constructor
  · intro h8
    obtain ⟨hblock, harg, hrest⟩ := trap_frame (c := c) gate entry error h h8
    refine ⟨harg, ?_, hrest, hblock⟩
    rw [resumeStateFull_eq, hblock]
  · have hgate : (c.enterGate gate (p + 0x100) entry (cpuError 8 error)).regs.rsp =
        p - 8 + if (8 : BitVec 32) ∈ errorVectors then 0xD0 else 0xD8 := by
      rw [enterGate_eq gate entry _ h]
      change p + 0xD0 = p - 8 + 0xD8
      ring
    obtain ⟨hblock, harg, -⟩ := tcbAt_save hgate
    exact ⟨harg, congrArg Tcb.ivect hblock⟩

theorem trap_round_trip_yield : ∃ m : Memory 64,
    resumeStateFull m 0x1000 = ({ zeroRegs with rip := 0x7000, rsp := 0x9000 } : Regs) :=
  ⟨_, ((trap_round_trip ⟨fun _ => 0, { zeroRegs with rip := 0x7000, rsp := 0x9000 }⟩ 0x1000 .trap 0 0
    0x100 (by decide)).1 (by decide)).2.1⟩

/-- An interrupt that comes between a trap gate and the cli of its stub takes the place of the first
frame. The thread goes on at the stub, with its stack in its own block, after the interrupt and again
after the trap. -/
theorem nested_trap_lost (c : Cpu) (p : Ptr) (entry irqEntry error : Word) (v w : BitVec 32)
    (h : p.toNat % 16 = 0) (h8 : v ≠ 8) (hw : 32 ≤ w) :
    let c₁ := c.enterGate .trap (p + 0x100) entry (cpuError v error)
    let m := (c₁.trap .irq (p + 0x100) irqEntry w 0).1
    resumeStateFull m p = c₁.regs ∧
      (∀ m', (tcbAt m' p).regs = (tcbAt m p).regs →
        resumeStateFull ((⟨m', c₁.regs⟩ : Cpu).stub v).saveStateFull.1 p = c₁.regs) ∧
      c₁.regs.rip = entry ∧ c₁.regs.rsp = p + if v ∈ errorVectors then 0xD0 else 0xD8 := by
  intro c₁ m
  have hregs : c₁.regs = _ := enterGate_regs (c := c) .trap entry error h h8
  have hw8 : w ≠ 8 := by
    rintro rfl
    exact absurd hw (by decide)
  have hblock : (tcbAt m p).regs = c₁.regs :=
    congrArg Tcb.regs (trap_frame (c := c₁) .irq irqEntry 0 h hw8).1
  refine ⟨(resumeStateFull_eq m p).trans hblock, fun m' hm => ?_, ?_, ?_⟩
  · obtain ⟨hsave, -, -⟩ := tcbAt_save (c := ⟨m', c₁.regs⟩) (p := p) (v := v) (by rw [hregs])
    rw [resumeStateFull_eq, hsave, Tcb.saveStub, hm, hblock]
    rfl
  · rw [hregs]
  · rw [hregs]

theorem nested_trap_lost_yield : ∃ m : Memory 64,
    (resumeStateFull m 0x1000).rip = 0x5000 ∧ (resumeStateFull m 0x1000).rsp = 0x10D8 := by
  obtain ⟨hres, -, hrip, hrsp⟩ := nested_trap_lost
    ⟨fun _ => 0, { zeroRegs with rip := 0x7000, rsp := 0x9000 }⟩ 0x1000 0x5000 0x6000 0 0x100 32
    (by decide) (by decide) (by decide)
  exact ⟨_, (congrArg Regs.rip hres).trans hrip, (congrArg Regs.rsp hres).trans hrsp⟩

end Trap
end Pinion64
