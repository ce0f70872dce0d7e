import Pinion64.LoadPinion

/-! What unfold takes over from the boot loader: init_multiboot of multiboot.c, with a log of what it
writes to its static buffers and of what it reads through the string pointers. -/
namespace Pinion64
open Bytes

namespace Unfold

section Machine

/-- The static buffers of multiboot.c, by the pointers through which they are written. -/
inductive Buffer
  | mmap
  | objl
  deriving DecidableEq

/-- `size` bytes from an offset of a buffer on. -/
structure Write where
  buffer : Buffer
  offset : ℕ
  size : ℕ
  deriving DecidableEq

/-- `string[index]`, for an index that may be negative. -/
structure CharRead where
  string : Addr
  index : BitVec 32
  deriving DecidableEq

/-- Where the linker puts the static buffers: into the image of unfold, below pinion_phys. -/
structure Layout where
  mbootStaticMmap : Addr
  mbootStaticObjl : Addr
  mmap_ne : mbootStaticMmap ≠ 0
  objl_ne : mbootStaticObjl ≠ 0
  mmap_below : mbootStaticMmap.toNat + 256 ≤ 0x200000
  objl_below : mbootStaticObjl.toNat + 256 ≤ 0x200000
  apart : Separate mbootStaticMmap 256 mbootStaticObjl 256

/-- The memory and the global pointers of unfold, with the two logs, the latest access first. -/
structure Machine where
  mem : Memory 32
  mmap : Addr
  objectList : Addr
  pinionImage : Addr
  writes : List Write
  reads : List CharRead

namespace Machine

/-- The global pointers are NULL at first. -/
def start (m : Memory 32) : Machine := ⟨m, 0, 0, 0, [], []⟩

def base (s : Machine) : Buffer → Addr
  | .mmap => s.mmap
  | .objl => s.objectList

def write (s : Machine) (b : Buffer) (offset : Addr) {n : ℕ} (v : BitVec (8 * n)) : Machine :=
  { s with
    mem := writeLE s.mem (s.base b + offset) v
    writes := ⟨b, offset.toNat, n⟩ :: s.writes }

def write8 (s : Machine) (b : Buffer) (offset : Addr) (v : BitVec 8) : Machine :=
  s.write b offset (n := 1) v

def write32 (s : Machine) (b : Buffer) (offset : Addr) (v : BitVec 32) : Machine :=
  s.write b offset (n := 4) v

def write64 (s : Machine) (b : Buffer) (offset : Addr) (v : Word) : Machine :=
  s.write b offset (n := 8) v

/-- `string[j]` has been read. -/
def sawChar (s : Machine) (string : Addr) (j : BitVec 32) : Machine :=
  { s with reads := ⟨string, j⟩ :: s.reads }

end Machine
end Machine

section Fields

variable (m : Memory 32) (a : Addr)

/-! `struct multiboot_header` -/

def flags : BitVec 32 := readLE m a 4
def modsCount : BitVec 32 := readLE m (a + 20) 4
def modsAddr : Addr := readLE m (a + 24) 4
def mmapCount : BitVec 32 := readLE m (a + 44) 4
def mmapAddr : Addr := readLE m (a + 48) 4

def mbootFlagMods : BitVec 32 := 0x0008
def mbootFlagMmap : BitVec 32 := 0x0040

/-! `struct multiboot_mmap` -/

def recordSize : BitVec 32 := readLE m a 4
def baseAddr : Word := readLE m (a + 4) 8
def recordLength : Word := readLE m (a + 12) 8
def recordType : BitVec 32 := readLE m (a + 20) 4

/-! `struct multiboot_module` -/

def modStart : BitVec 32 := readLE m a 4
def modEnd : BitVec 32 := readLE m (a + 4) 4
def modString : Addr := readLE m (a + 8) 4

/-! `struct unfold_mmap` -/

def mmapTotal : Word := readLE m a 8
def regionCount : Word := readLE m (a + 8) 8

/-- `&mods_addr[i]` of the block at `a`. -/
def modAddr (i : BitVec 32) : Addr := modsAddr m a + 16 * i

/-- `mods_addr[i].string` of the block at `a`. -/
def stringOf (i : BitVec 32) : Addr := modString m (modAddr m a i)

end Fields

section Map

/-- The offset of `entry[count]`. -/
def regionOffset (s : Machine) : Addr := 16 + 16 * (regionCount s.mem s.mmap).setWidth 32

/-- A record of type 1 is appended to the memory map. -/
def addRegion (s : Machine) (r : Addr) : Machine :=
  let s := s.write64 .mmap 0 (mmapTotal s.mem s.mmap + recordLength s.mem r)
  let s := s.write64 .mmap (regionOffset s) (baseAddr s.mem r)
  let s := s.write64 .mmap (regionOffset s + 8) (recordLength s.mem r)
  s.write64 .mmap 8 (regionCount s.mem s.mmap + 1)

def mapLoop (mboot : Addr) : ℕ → BitVec 32 → Addr → Machine → Option Machine
  | 0, _, _, _ => none
  | fuel+1, i, mMmap, s =>
    if i < mmapCount s.mem mboot then
      let s := if recordType s.mem mMmap = 1 then addRegion s mMmap else s
      mapLoop mboot fuel (i + (recordSize s.mem mMmap + 4)) (mMmap + recordSize s.mem mMmap + 4) s
    else some s

variable (L : Layout)

def initMap (fuel : ℕ) (s : Machine) (mboot : Addr) : Option Machine :=
  if flags s.mem mboot &&& mbootFlagMmap ≠ 0 then
    let mMmap := mmapAddr s.mem mboot
    let s := { s with mmap := L.mbootStaticMmap }
    let s := s.write64 .mmap 8 0
    let s := s.write64 .mmap 0 0
    mapLoop mboot fuel 0 mMmap s
  else some s

end Map

section Modules

def unfoldObjectUnknown : BitVec 32 := 0xFFFFFFFF
def unfoldObjectPinion : BitVec 32 := 0x00000001

/-- The offset of `entry[i]`. -/
def entryOffset (i : BitVec 32) : Addr := 8 + 64 * i

/-! `struct unfold_object_list` and `struct unfold_object` -/

section Objects

variable (m : Memory 32) (a : Addr) (i : BitVec 32)

def objectCount : BitVec 32 := readLE m a 4
def objectBase : Word := readLE m (a + entryOffset i) 8
def objectSize : BitVec 32 := readLE m (a + (entryOffset i + 8)) 4
def objectType : BitVec 32 := readLE m (a + (entryOffset i + 12)) 4
def objectName (k : BitVec 32) : BitVec 8 := m (a + (entryOffset i + 16 + k))

end Objects

/-- The loop that copies the name, with `n` characters left to the end of the field. It looks for
the end in the string of the first module. -/
def copyName (mboot : Addr) (i : BitVec 32) : ℕ → BitVec 32 → Machine → Machine
  | 0, _, s => s
  | n+1, j, s =>
    let string := stringOf s.mem mboot i
    let s := (s.sawChar string j).write8 .objl (entryOffset i + 16 + j) (s.mem (string + j))
    let first := stringOf s.mem mboot 0
    let s := s.sawChar first j
    if s.mem (first + j) = 0 then s else copyName mboot i n (j + 1) s

/-- `for (j = 0; string[j]; j++)` -/
def findEnd (string : Addr) : ℕ → BitVec 32 → Machine → Option (BitVec 32 × Machine)
  | 0, _, _ => none
  | fuel+1, j, s =>
    if s.mem (string + j) ≠ 0 then findEnd string fuel (j + 1) (s.sawChar string j)
    else some (j, s.sawChar string j)

/-- `for (; string[j] != '/' && j >= 0; j--)` -/
def findSlash (string : Addr) : ℕ → BitVec 32 → Machine → Option (BitVec 32 × Machine)
  | 0, _, _ => none
  | fuel+1, j, s =>
    if s.mem (string + j) ≠ 0x2F ∧ 0 ≤ j.toInt then
      findSlash string fuel (j - 1) (s.sawChar string j)
    else some (j, s.sawChar string j)

/-- "pinion64" -/
def pinion64 : List (BitVec 8) := [0x70, 0x69, 0x6E, 0x69, 0x6F, 0x6E, 0x36, 0x34]

/-- The loop over "pinion64": the number of characters that agree with the string from `j` on. -/
def matchPinion (string : Addr) : List (BitVec 8) → BitVec 32 → Machine → ℕ × Machine
  | [], _, s => (0, s)
  | c :: cs, j, s =>
    if s.mem (string + j) = 0 then (0, s.sawChar string j)
    else if c ≠ s.mem (string + j) then (0, s.sawChar string j)
    else ((matchPinion string cs (j + 1) (s.sawChar string j)).1 + 1,
      (matchPinion string cs (j + 1) (s.sawChar string j)).2)

/-- The base, the size and the name of an object. -/
def copyModule (mboot : Addr) (i : BitVec 32) (s : Machine) : Machine :=
  let s := s.write64 .objl (entryOffset i) ((modStart s.mem (modAddr s.mem mboot i)).setWidth 64)
  let s := s.write32 .objl (entryOffset i + 8)
    (modEnd s.mem (modAddr s.mem mboot i) - modStart s.mem (modAddr s.mem mboot i))
  let s := s.write32 .objl (entryOffset i + 12) unfoldObjectUnknown
  let s := copyName mboot i 48 0 s
  s.write8 .objl (entryOffset i + 63) 0

/-- The check for the pinion64 module. -/
def typeModule (mboot : Addr) (i : BitVec 32) (fuel : ℕ) (s : Machine) : Option Machine := do
  let string := stringOf s.mem mboot i
  let (j, s) ← findEnd string fuel 0 s
  let (j, s) ← findSlash string fuel j s
  let (k, s) := matchPinion string pinion64 (j + 1) s
  some (if k = 8 then s.write32 .objl (entryOffset i + 12) unfoldObjectPinion else s)

def modLoop (mboot : Addr) : ℕ → BitVec 32 → Machine → Option Machine
  | 0, _, _ => none
  | fuel+1, i, s =>
    if i < modsCount s.mem mboot then
      (typeModule mboot i fuel (copyModule mboot i s)).bind (modLoop mboot fuel (i + 1))
    else some s

variable (L : Layout)

def initModules (fuel : ℕ) (s : Machine) (mboot : Addr) : Option Machine :=
  if flags s.mem mboot &&& mbootFlagMods ≠ 0 then
    let s := { s with objectList := L.mbootStaticObjl }
    let s := s.write32 .objl 0 (modsCount s.mem mboot)
    modLoop mboot fuel 0 s
  else some s

/-- The command line is only logged. -/
def initMultiboot (fuel : ℕ) (s : Machine) (mboot : Addr) : Option Machine :=
  (initMap L fuel s mboot).bind fun s => initModules L fuel s mboot

end Modules

/-- The write lies inside its buffer. -/
def Write.Fits (w : Write) : Prop := w.offset + w.size ≤ 256

instance Write.decidableFits (w : Write) : Decidable w.Fits := inferInstanceAs (Decidable (_ ≤ _))

variable {m m' : Memory 32} {s : Machine}

section Frame

variable {b : Buffer} {a o : Addr} {n : ℕ} {v : BitVec (8 * n)}

theorem write64_mmap {v : Word} : (s.write64 b o v).mmap = s.mmap := rfl

/-- A write inside the buffer leaves the bytes outside as they are. -/
theorem write_outside (h : o.toNat + n ≤ 256) {x : Addr} (hx : ¬ Within (s.base b) 256 x) :
    (s.write b o v).mem x = s.mem x :=
  writeLE_outside s.mem v fun hw => hx (within_field o hw h (by decide))

/-- A field in front of the write. -/
theorem readLE_write_front {p : Addr} {k : ℕ} (hk : 0 < k) (hp : p.toNat + k ≤ o.toNat)
    (h : o.toNat + n ≤ 256) :
    readLE (s.write b o v).mem (s.base b + p) k = readLE s.mem (s.base b + p) k :=
  readLE_writeLE_apart s.mem v (by omega) (separate_fields _ hk hp (by omega)).symm

/-- A field behind the write. -/
theorem readLE_write_behind {p : Addr} {k : ℕ} (hn : 0 < n) (hp : o.toNat + n ≤ p.toNat)
    (h : p.toNat + k ≤ 256) :
    readLE (s.write b o v).mem (s.base b + p) k = readLE s.mem (s.base b + p) k :=
  readLE_writeLE_apart s.mem v (by omega) (separate_fields _ hn hp (by omega))

theorem fits_write (hs : ∀ w ∈ s.writes, w.Fits) (h : o.toNat + n ≤ 256) :
    ∀ w ∈ (s.write b o v).writes, w.Fits := by
  intro w hw
  rcases List.mem_cons.mp hw with rfl | hw
  · exact h
  · exact hs w hw

theorem readLE_write_self (h : n ≤ 256) :
    readLE (s.write b o v).mem (s.base b + o) n = v :=
  readLE_writeLE s.mem _ v (by omega)

theorem write8_self {c : BitVec 8} : (s.write8 b o c).mem (s.base b + o) = c := by
  have h0 : (s.base b + o - (s.base b + o)).toNat = 0 := by
    rw [show s.base b + o - (s.base b + o) = 0 by ring]
    rfl
  refine (if_pos (by rw [Within, h0]; decide)).trans ?_
  rw [h0]
  exact BitVec.extractLsb'_eq_self

theorem block_congr (h : ∀ x, Within a 52 x → m' x = m x) :
    flags m' a = flags m a ∧ modsCount m' a = modsCount m a ∧ modsAddr m' a = modsAddr m a ∧
      mmapCount m' a = mmapCount m a ∧ mmapAddr m' a = mmapAddr m a := by
  have hf : ∀ (o : Addr) (n : ℕ), o.toNat + n ≤ 52 → readLE m' (a + o) n = readLE m (a + o) n :=
    fun o n hn => readLE_eq_of_within (by omega) fun x hx => h x (within_field o hx hn (by decide))
  refine ⟨?_, hf 20 4 (by decide), hf 24 4 (by decide), hf 44 4 (by decide), hf 48 4 (by decide)⟩
  exact readLE_eq_of_within (by decide) fun x hx => h x (lt_of_lt_of_le hx (by decide))

end Frame

end Unfold
end Pinion64
