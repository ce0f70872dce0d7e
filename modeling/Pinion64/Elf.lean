import Pinion64.Lib.Bytes
import Pinion64.Pmm

/-! The ELF64 records of load.c, as they lie in memory. -/
namespace Pinion64

open Bytes

def read16 (m : Memory 64) (a : Ptr) : BitVec 16 := readLE m a 2

def read32 (m : Memory 64) (a : Ptr) : BitVec 32 := readLE m a 4

def read64 (m : Memory 64) (a : Ptr) : Word := readLE m a 8

def write64 (m : Memory 64) (a : Ptr) (v : Word) : Memory 64 := writeLE (n := 8) m a v

structure Ehdr where
  eEntry : Word
  ePhoff : Word
  ePhentsize : BitVec 16
  ePhnum : BitVec 16
  deriving DecidableEq

def Ehdr.read (m : Memory 64) (a : Ptr) : Ehdr where
  eEntry := read64 m (a + 24)
  ePhoff := read64 m (a + 32)
  ePhentsize := read16 m (a + 54)
  ePhnum := read16 m (a + 56)

structure Phdr where
  pType : BitVec 32
  pOffset : Word
  pVaddr : Word
  pFilesz : Word
  pMemsz : Word
  deriving DecidableEq

def Phdr.read (m : Memory 64) (a : Ptr) : Phdr where
  pType := read32 m a
  pOffset := read64 m (a + 8)
  pVaddr := read64 m (a + 16)
  pFilesz := read64 m (a + 32)
  pMemsz := read64 m (a + 40)

structure Dyn where
  dTag : Word
  dVal : Word
  deriving DecidableEq

def Dyn.read (m : Memory 64) (a : Ptr) : Dyn where
  dTag := read64 m a
  dVal := read64 m (a + 8)

structure Sym where
  stName : BitVec 32
  deriving DecidableEq

def Sym.read (m : Memory 64) (a : Ptr) : Sym where
  stName := read32 m a

structure Rela where
  rOffset : Word
  rType : BitVec 32
  rSym : BitVec 32
  rAddend : Word
  deriving DecidableEq

def Rela.read (m : Memory 64) (a : Ptr) : Rela where
  rOffset := read64 m a
  rType := read32 m (a + 8)
  rSym := read32 m (a + 12)
  rAddend := read64 m (a + 16)

section
variable {m m' : Memory 64} {a : Ptr}

theorem Rela.read_congr (h : ∀ x, Within a 24 x → m' x = m x) : Rela.read m' a = Rela.read m a := by
  have hf : ∀ (o : Word) (n : ℕ), o.toNat + n ≤ 24 → readLE m' (a + o) n = readLE m (a + o) n := by
    intro o n hn
    exact readLE_eq_of_within (by omega) fun x hx => h x (within_field o hx hn (by decide))
  have h0 : readLE m' a 8 = readLE m a 8 :=
    readLE_eq_of_within (by decide) fun x hx => h x (lt_of_lt_of_le hx (by decide))
  unfold Rela.read read64 read32
  rw [h0, hf 8 4 (by decide), hf 12 4 (by decide), hf 16 8 (by decide)]

theorem Sym.read_congr (h : ∀ x, Within a 4 x → m' x = m x) : Sym.read m' a = Sym.read m a := by
  unfold Sym.read read32
  rw [readLE_eq_of_within (by decide) h]

end

theorem read64_write64 (m : Memory 64) (a : Ptr) (v : Word) : read64 (write64 m a v) a = v :=
  readLE_writeLE (n := 8) m a v (by decide)

theorem read64_write64_apart (m : Memory 64) {a b : Ptr} (v : Word) (h : Separate a 8 b 8) :
    read64 (write64 m a v) b = read64 m b :=
  readLE_writeLE_apart (n := 8) m v (by decide) h

theorem write64_outside (m : Memory 64) {a x : Ptr} (v : Word) (h : ¬ Within a 8 x) :
    write64 m a v x = m x :=
  writeLE_outside (n := 8) m v h

end Pinion64
