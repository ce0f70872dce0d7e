import Pinion64.Page

/-! Thread control blocks. The first word of a block is reserved0, state and id while the block
is in use and the link of the free list once tcb_free has overwritten it. -/
namespace Pinion64

/-- The registers that an interrupt saves and resume_state_full loads. -/
structure Regs where
  rax : Word
  rcx : Word
  rbx : Word
  rdx : Word
  rdi : Word
  rsi : Word
  rbp : Word
  r8 : Word
  r9 : Word
  r10 : Word
  r11 : Word
  r12 : Word
  r13 : Word
  r14 : Word
  r15 : Word
  rip : Word
  cs : Word
  rflags : Word
  rsp : Word
  ss : Word

def tcbStateFree : BitVec 16 := 0
def tcbStateSuspendedWaiting : BitVec 16 := 1
def tcbStateSuspended : BitVec 16 := 2
def tcbStateWaiting : BitVec 16 := 3
def tcbStateQueued : BitVec 16 := 4
def tcbStateRunning : BitVec 16 := 5

structure Tcb where
  reserved0 : BitVec 16
  state : BitVec 16
  id : BitVec 32
  tap : Fin 4 → BitVec 16
  next : Ptr
  pcxId : BitVec 32
  faultAddr : Word
  gs : Word
  regs : Regs
  xstate : Ptr
  ivect : BitVec 32
  saved : BitVec 32
  error : Word

/-- The indices of the taps of a block and of the places of a route. -/
def slots : List (Fin 4) := [0, 1, 2, 3]

theorem mem_slots (i : Fin 4) : i ∈ slots := by
  revert i
  decide

namespace Tcb

/-- The word at offset 0. -/
def word0 (t : Tcb) : Word := t.id ++ t.state ++ t.reserved0

def setWord0 (t : Tcb) (w : Word) : Tcb :=
  { t with
    reserved0 := w.extractLsb' 0 16
    state := w.extractLsb' 16 16
    id := w.extractLsb' 32 32 }

@[simp] theorem word0_setWord0 (t : Tcb) (w : Word) : (t.setWord0 w).word0 = w := by
  apply BitVec.eq_of_getLsbD_eq
  intro i hi
  simp only [word0, setWord0, BitVec.getLsbD_append, BitVec.getLsbD_extractLsb']
  split_ifs with h1 h2
  · simp [h1]
  · simp [h2, show 16 + (i - 16) = i by omega]
  · simp only [Nat.sub_sub]
    simp [show i - (16 + 16) < 32 by omega, show 32 + (i - (16 + 16)) = i by omega]

/-- An empty list or a link into the pinion window leaves no waiting state behind. -/
theorem setWord0_state (t : Tcb) {w : Word} (hw : w ≠ 0 → base ≤ w) :
    (t.setWord0 w).state ≠ tcbStateWaiting ∧ (t.setWord0 w).state ≠ tcbStateSuspendedWaiting := by
  by_cases h0 : w = 0
  · subst h0
    change (0 : Word).extractLsb' 16 16 ≠ _ ∧ (0 : Word).extractLsb' 16 16 ≠ _
    decide
  · have hb : base.toNat ≤ w.toNat := hw h0
    have ht : (t.setWord0 w).state.toNat = w.toNat / 2 ^ 16 % 2 ^ 16 := by
      rw [setWord0, BitVec.extractLsb'_toNat, Nat.shiftRight_eq_div_pow]
    have hlt := w.isLt
    simp only [base, BitVec.reduceToNat] at hb
    constructor <;>
    · intro he
      rw [he] at ht
      simp only [tcbStateWaiting, tcbStateSuspendedWaiting, BitVec.reduceToNat] at ht
      omega

/-- The first tap set to a vector, the fired flag and the bit below it put aside. -/
def tapOf (t : Tcb) (vec : BitVec 16) : Option (Fin 4) :=
  [0, 1, 2, 3].find? fun j => t.tap j &&& 0x3FFF = vec

/-- `tap[j] |= 0x8000` -/
def fireTap (t : Tcb) (j : Fin 4) : Tcb :=
  { t with tap := Function.update t.tap j (t.tap j ||| 0x8000) }

end Tcb
end Pinion64
