import Pinion64.Lapic
import Pinion64.Lib.Bytes
import Pinion64.Log
import Mathlib.Data.List.DropRight

/-! The tables that the firmware leaves in memory: find_mptable of mp.s, ioapic_init of apic.c, which
reads the MP table, and init_acpi of acpi.c, which looks for that of ACPI. -/
namespace Pinion64
open Bytes

/-- A call of log. -/
structure LogCall where
  level : ℤ
  fmt : List Byte
  args : List LogArg
  deriving DecidableEq

/-- What the kernel writes for its calls one after the other. -/
def logText : List LogCall → Option (List Byte)
  | [] => some []
  | c :: cs => do some ((← log true c.level c.fmt c.args) ++ (← logText cs))

/-- The sum of the first `n` bytes of a record. -/
def byteSum (m : Memory 64) (a : Ptr) (n : ℕ) : Byte :=
  (List.range n).foldl (fun sum i => sum + m (a + BitVec.ofNat 64 i)) 0

section Find

def MpFloating (m : Memory 64) (a : Ptr) : Prop := readLE m a 4 = 0x5F504D5F ∧ byteSum m a 16 = 0

instance (m : Memory 64) (a : Ptr) : Decidable (MpFloating m a) := inferInstanceAs (Decidable (_ ∧ _))

/-- The loop of find_mptable up to the address `rcx`, with `n` turns at most. -/
def findMptableFrom (m : Memory 64) (rcx : Ptr) : ℕ → Ptr → Option Ptr
  | 0, _ => none
  | n+1, rdx =>
    if rcx ≤ rdx + 16 then some 0
    else if MpFloating m (rdx + 16) then some (rdx + 16)
    else findMptableFrom m rcx n (rdx + 16)

def findMptable (m : Memory 64) : Option Ptr :=
  findMptableFrom m (pmmVaddr 0 + 0xF00000) 0xF0000 (pmmVaddr 0)

def IsRdsp (m : Memory 64) (paddr : Word) : Prop :=
  readLE m (pmmVaddr paddr) 8 = 0x2052545020445352 ∧ byteSum m (pmmVaddr paddr) 20 = 0

instance (m : Memory 64) (a : Word) : Decidable (IsRdsp m a) := inferInstanceAs (Decidable (_ ∧ _))

/-- The loop of init_acpi, with `n` turns at most. -/
def initAcpiFrom (m : Memory 64) : ℕ → Word → Option (List LogCall)
  | 0, _ => none
  | n+1, i =>
    if i = 0 then some []
    else if IsRdsp m i then some [⟨logDebug, bytes "found RDSP table at %p", [.word i]⟩]
    else initAcpiFrom m n (i - 2)

def initAcpi (m : Memory 64) : Option (List LogCall) := initAcpiFrom m 0x80000 (0x100000 - 2)

end Find

section Walk

/-- The loop that ends the name of a bus before its trailing blanks, with `j` characters left. A name
of blanks only makes it go on before the string. -/
def trimBlanks : ℕ → List Byte → Option (List Byte)
  | 0, _ => none
  | j+1, string =>
    if string.getD j nul = space then trimBlanks j (string.set j nul) else some string

/-- The string that is logged for a bus. -/
def busString (m : Memory 64) (bus : Ptr) : Option (List Byte) :=
  (trimBlanks 6 ((List.range 6).map fun j => m (bus + 2 + BitVec.ofNat 64 j))).map
    fun string => string.takeWhile (· ≠ nul)

def byteArg (b : Byte) : LogArg := .int (b.setWidth 32)

def cpuCall (lapicId : Byte) (signature : BitVec 32) : LogCall :=
  ⟨logDebug, bytes "CPU (LAPIC id %x, signature %x)", [byteArg lapicId, .int signature]⟩

def busCall (id : Byte) (string : List Byte) : LogCall :=
  ⟨logDebug, bytes "BUS (id %x, type \"%s\")", [byteArg id, .str (some string)]⟩

def ioapicCall (id ver : Byte) (addr : BitVec 32) : LogCall :=
  ⟨logDebug, bytes "IOAPIC (id %x, version %d, addr %p",
    [byteArg id, byteArg ver, .word (pmmVaddr (addr.setWidth 64))]⟩

def intCall (type bus irq ioapic intn : Byte) : LogCall :=
  ⟨logDebug, bytes "INT (type %d bus %d irq %d ioapic %x intn %d)",
    [byteArg type, byteArg bus, byteArg irq, byteArg ioapic, byteArg intn]⟩

/-- What is logged for an entry, and where the next one is looked for. An entry of another type is
never passed. -/
def mptableEntry (m : Memory 64) (entry : Ptr) : Option (List LogCall × Ptr) :=
  if m entry = 0 then some ([cpuCall (m (entry + 1)) (readLE m (entry + 4) 4)], entry + 20)
  else if m entry = 1 then
    (busString m entry).map fun string => ([busCall (m (entry + 1)) string], entry + 8)
  else if m entry = 2 then
    some ([ioapicCall (m (entry + 1)) (m (entry + 2)) (readLE m (entry + 4) 4)], entry + 8)
  else if m entry = 3 ∨ m entry = 4 then
    some ([intCall (m (entry + 1)) (m (entry + 4)) (m (entry + 5)) (m (entry + 6)) (m (entry + 7))],
      entry + 8)
  else some ([], entry)

/-- The loop over the entries, with `n` of them left. -/
def mptableEntries (m : Memory 64) : ℕ → Ptr → Option (List LogCall)
  | 0, _ => some []
  | n+1, entry => (mptableEntry m entry).bind fun r => (mptableEntries m n r.2).map (r.1 ++ ·)

/-- How ioapic_init ends, and what it has logged. -/
inductive IoapicInit
  | hangs (calls : List LogCall)
  | returns (calls : List LogCall) (ioapic : Ptr)
  deriving DecidableEq

/-- The table that the floating pointer structure names. -/
def mptableOf (m : Memory 64) (ptr : Ptr) : Ptr := pmmVaddr ((readLE m (ptr + 4) 4).setWidth 64)

def entryCount (m : Memory 64) (mptable : Ptr) : BitVec 16 := readLE m (mptable + 34) 2

def mptableCall (m : Memory 64) (mptable : Ptr) : LogCall :=
  ⟨logDebug, bytes "MP table: rev %d, %d entries",
    [byteArg (m (mptable + 6)), .int ((entryCount m mptable).setWidth 32)]⟩

/-- There is no result if the table lies where pmm_vaddr knows no address. -/
def ioapicInit (m : Memory 64) : Option IoapicInit :=
  (findMptable m).bind fun ptr =>
    if ptr = 0 then some (.hangs [⟨3, bytes "no MP table found!", []⟩])
    else if mptableOf m ptr = 0 then none
    else
      (mptableEntries m (entryCount m (mptableOf m ptr)).toNat (mptableOf m ptr + 44)).map fun calls =>
        .returns (mptableCall m (mptableOf m ptr) :: calls) (pmmVaddr 0xFEC00000)

end Walk

section Entries

/-- An entry of the table as the firmware writes it. -/
inductive MpEntry
  | cpu (lapicId lapicVersion flags : Byte) (signature feature : BitVec 32) (reserved : BitVec 64)
  | bus (id : Byte) (name : {s : List Byte // s.length = 6})
  | ioapic (id ver flags : Byte) (addr : BitVec 32)
  | interrupt (lint : Bool) (type : Byte) (flags : BitVec 16) (source irq target intn : Byte)

namespace MpEntry

def encode : MpEntry → List Byte
  | cpu lapicId lapicVersion flags signature feature reserved =>
    [0, lapicId, lapicVersion, flags] ++ (wordBytes (n := 4) signature ++
      (wordBytes (n := 4) feature ++ wordBytes (n := 8) reserved))
  | bus id name => [1, id] ++ name.1
  | ioapic id ver flags addr => [2, id, ver, flags] ++ wordBytes (n := 4) addr
  | interrupt lint type flags source irq target intn =>
    [if lint then 4 else 3, type] ++ (wordBytes (n := 2) flags ++ [source, irq, target, intn])

/-- The name of a bus without the blanks behind it. -/
def trimmed (name : List Byte) : List Byte := name.rdropWhile (· = space)

/-- The line for an entry: none for a bus whose name is blank. -/
def call : MpEntry → Option LogCall
  | cpu lapicId _ _ signature _ _ => some (cpuCall lapicId signature)
  | bus id name =>
    if trimmed name.1 = [] then none else some (busCall id ((trimmed name.1).takeWhile (· ≠ nul)))
  | ioapic id ver _ addr => some (ioapicCall id ver addr)
  | interrupt _ type _ source irq target intn => some (intCall type source irq target intn)

end MpEntry

variable {m : Memory 64} {a : Ptr} {n : ℕ}

theorem takeWhile_replicate {α : Type*} {p : α → Bool} {c : α} (hc : p c = false) (s : List α) (k : ℕ) :
    (s ++ List.replicate k c).takeWhile p = s.takeWhile p := by
  induction s with
  | nil => cases k <;> simp [List.replicate_succ, hc]
  | cons d s ih => simp [List.takeWhile_cons, ih]

theorem trimBlanks_eq (s : List Byte) (k : ℕ) :
    (trimBlanks s.length (s ++ List.replicate k nul)).map (fun s => s.takeWhile (· ≠ nul)) =
      if MpEntry.trimmed s = [] then none
      else some ((MpEntry.trimmed s).takeWhile (· ≠ nul)) := by
  induction s using List.reverseRecOn generalizing k with
  | nil => rfl
  | append_singleton s c ih =>
    have hat : (s ++ [c] ++ List.replicate k nul).getD s.length nul = c := by simp
    rw [List.length_append, List.length_singleton, trimBlanks, hat]
    by_cases hc : c = space
    · subst hc
      have hset : (s ++ [space] ++ List.replicate k nul).set s.length nul =
          s ++ List.replicate (k + 1) nul := by
        simp [List.replicate_succ]
      have htrim : MpEntry.trimmed (s ++ [space]) = MpEntry.trimmed s :=
        List.rdropWhile_concat_pos _ _ _ (by simp)
      rw [if_pos rfl, hset, ih, htrim]
    · have htrim : MpEntry.trimmed (s ++ [c]) = s ++ [c] :=
        List.rdropWhile_concat_neg _ _ _ (by simpa using hc)
      rw [if_neg hc, htrim, if_neg (by simp), Option.map_some, takeWhile_replicate (by simp)]

theorem busString_stored {name : {s : List Byte // s.length = 6}} (h : Stored m (a + 2) name.1) :
    busString m a = if MpEntry.trimmed name.1 = [] then none
      else some ((MpEntry.trimmed name.1).takeWhile (· ≠ nul)) := by
  have hread := h.range
  rw [name.2] at hread
  have htrim := trimBlanks_eq name.1 0
  rw [List.replicate_zero, List.append_nil, name.2] at htrim
  rw [busString, hread, htrim]

/-- An entry is read as it was written, and the next one is looked for behind it. -/
theorem mptableEntry_stored {e : MpEntry} (h : Stored m a e.encode) :
    mptableEntry m a = e.call.map fun c => ([c], a + BitVec.ofNat 64 e.encode.length) := by
  cases e with
  | cpu lapicId lapicVersion flags signature feature reserved =>
    obtain ⟨hhead, hrest⟩ := stored_append.mp h
    have htype : m a = 0 := (stored_cons.mp hhead).1
    have hid : m (a + 1) = lapicId := hhead 1 _ rfl
    have hsig : readLE m (a + 4) 4 = signature := stored_wordBytes.mp (stored_append.mp hrest).1
    rw [mptableEntry, if_pos htype, hid, hsig]
    simp [MpEntry.call, MpEntry.encode]
  | bus id name =>
    obtain ⟨hhead, hname⟩ := stored_append.mp h
    have htype : m a = 1 := (stored_cons.mp hhead).1
    have hid : m (a + 1) = id := hhead 1 _ rfl
    rw [mptableEntry, htype, if_neg (by decide), if_pos rfl, hid, busString_stored hname, MpEntry.call]
    split_ifs
    · rfl
    · simp [MpEntry.encode, name.2]
  | ioapic id ver flags addr =>
    obtain ⟨hhead, hrest⟩ := stored_append.mp h
    have htype : m a = 2 := (stored_cons.mp hhead).1
    have hid : m (a + 1) = id := hhead 1 _ rfl
    have hver : m (a + 2) = ver := hhead 2 _ rfl
    have haddr : readLE m (a + 4) 4 = addr := stored_wordBytes.mp hrest
    rw [mptableEntry, htype, if_neg (by decide), if_neg (by decide), if_pos rfl, hid, hver, haddr]
    simp [MpEntry.call, MpEntry.encode]
  | interrupt lint type flags source irq target intn =>
    obtain ⟨hhead, hrest⟩ := stored_append.mp h
    have htype : m a = if lint then 4 else 3 := (stored_cons.mp hhead).1
    have hid : m (a + 1) = type := hhead 1 _ rfl
    have htail := (stored_append.mp hrest).2
    rw [length_wordBytes, BitVec.add_assoc] at htail
    have hbus : m (a + 4) = source := by simpa using htail 0 _ rfl
    have hirq : m (a + 5) = irq := by simpa [BitVec.add_assoc] using htail 1 _ rfl
    have hioapic : m (a + 6) = target := by simpa [BitVec.add_assoc] using htail 2 _ rfl
    have hintn : m (a + 7) = intn := by simpa [BitVec.add_assoc] using htail 3 _ rfl
    have hknown : m a ≠ 0 ∧ m a ≠ 1 ∧ m a ≠ 2 ∧ (m a = 3 ∨ m a = 4) := by
      rw [htype]
      cases lint <;> decide
    obtain ⟨h0, h1, h2, h34⟩ := hknown
    rw [mptableEntry, if_neg h0, if_neg h1, if_neg h2, if_pos h34, hid, hbus, hirq, hioapic, hintn]
    simp [MpEntry.call, MpEntry.encode]

/-- Of the five known types every entry is one that the firmware could have written. -/
theorem exists_entry (h : (m a).toNat ≤ 4) : ∃ e : MpEntry, Stored m a e.encode := by
  have hcases : m a = 0 ∨ m a = 1 ∨ m a = 2 ∨ m a = 3 ∨ m a = 4 := by bv_omega
  rcases hcases with hm | hm | hm | hm | hm
  · exact ⟨.cpu _ _ _ _ _ _, stored_append.mpr ⟨stored_cons.mpr ⟨hm, stored_cons.mpr ⟨rfl,
      stored_cons.mpr ⟨rfl, stored_cons.mpr ⟨rfl, stored_nil⟩⟩⟩⟩, stored_append.mpr
        ⟨stored_wordBytes.mpr rfl, stored_append.mpr ⟨stored_wordBytes.mpr rfl,
          stored_wordBytes.mpr rfl⟩⟩⟩⟩
  · exact ⟨.bus _ ⟨(List.range 6).map fun i => m (a + 2 + BitVec.ofNat 64 i), by simp⟩,
      stored_append.mpr ⟨stored_cons.mpr ⟨hm, stored_cons.mpr ⟨rfl, stored_nil⟩⟩, stored_range⟩⟩
  · exact ⟨.ioapic _ _ _ _, stored_append.mpr ⟨stored_cons.mpr ⟨hm, stored_cons.mpr ⟨rfl,
      stored_cons.mpr ⟨rfl, stored_cons.mpr ⟨rfl, stored_nil⟩⟩⟩⟩, stored_wordBytes.mpr rfl⟩⟩
  · exact ⟨.interrupt false _ _ _ _ _ _, stored_append.mpr ⟨stored_cons.mpr ⟨hm, stored_cons.mpr
      ⟨rfl, stored_nil⟩⟩, stored_append.mpr ⟨stored_wordBytes.mpr rfl, stored_cons.mpr ⟨rfl,
        stored_cons.mpr ⟨rfl, stored_cons.mpr ⟨rfl, stored_cons.mpr ⟨rfl, stored_nil⟩⟩⟩⟩⟩⟩⟩
  · exact ⟨.interrupt true _ _ _ _ _ _, stored_append.mpr ⟨stored_cons.mpr ⟨hm, stored_cons.mpr
      ⟨rfl, stored_nil⟩⟩, stored_append.mpr ⟨stored_wordBytes.mpr rfl, stored_cons.mpr ⟨rfl,
        stored_cons.mpr ⟨rfl, stored_cons.mpr ⟨rfl, stored_cons.mpr ⟨rfl, stored_nil⟩⟩⟩⟩⟩⟩⟩

/-- The entries that the loop gets to: all of them, or those before the first of an unknown type. -/
structure MpTable (m : Memory 64) (a : Ptr) (n : ℕ) (es : List MpEntry) : Prop where
  stored : Stored m a (es.flatMap MpEntry.encode)
  ends : es.length = n ∨
    es.length < n ∧ 4 < (m (a + BitVec.ofNat 64 (es.flatMap MpEntry.encode).length)).toNat

theorem mptableEntries_stuck (h : 4 < (m a).toNat) (n : ℕ) : mptableEntries m n a = some [] := by
  have hentry : mptableEntry m a = some ([], a) := by
    rw [mptableEntry, if_neg (by bv_omega), if_neg (by bv_omega), if_neg (by bv_omega),
      if_neg (by bv_omega)]
  induction n with
  | zero => rfl
  | succ n ih =>
    rw [mptableEntries, hentry, Option.bind_some, ih]
    rfl

theorem MpTable.cons_iff {e : MpEntry} {es : List MpEntry} : MpTable m a (n + 1) (e :: es) ↔
    Stored m a e.encode ∧ MpTable m (a + BitVec.ofNat 64 e.encode.length) n es := by
  have hend : a + BitVec.ofNat 64 ((e :: es).flatMap MpEntry.encode).length =
      a + BitVec.ofNat 64 e.encode.length + BitVec.ofNat 64 (es.flatMap MpEntry.encode).length := by
    rw [List.flatMap_cons, List.length_append, BitVec.ofNat_add, BitVec.add_assoc]
  constructor
  · rintro ⟨hst, hends⟩
    rw [hend, List.length_cons, Nat.add_right_cancel_iff, Nat.add_lt_add_iff_right] at hends
    obtain ⟨he, hes⟩ := stored_append.mp hst
    exact ⟨he, hes, hends⟩
  · rintro ⟨he, hes, hends⟩
    refine ⟨stored_append.mpr ⟨he, hes⟩, ?_⟩
    rwa [hend, List.length_cons, Nat.add_right_cancel_iff, Nat.add_lt_add_iff_right]

/-- The loop logs each of its entries once, in their order. -/
theorem mptableEntries_table {es : List MpEntry} (h : MpTable m a n es) :
    mptableEntries m n a = es.mapM MpEntry.call := by
  induction es generalizing n a with
  | nil =>
    rcases h.ends with rfl | ⟨-, hm⟩
    · rfl
    · exact mptableEntries_stuck (by simpa using hm) n
  | cons e es ih =>
    obtain ⟨n, rfl⟩ : ∃ k, n = k + 1 := by
      have hlen := h.ends
      rw [List.length_cons] at hlen
      exact ⟨n - 1, by omega⟩
    obtain ⟨he, hes⟩ := MpTable.cons_iff.mp h
    rw [mptableEntries, mptableEntry_stored he, List.mapM_cons]
    cases e.call with
    | none => rfl
    | some c =>
      rw [Option.map_some, Option.bind_some, ih hes]
      cases es.mapM MpEntry.call <;> rfl

theorem exists_table (m : Memory 64) (a : Ptr) (n : ℕ) : ∃ es, MpTable m a n es := by
  induction n generalizing a with
  | zero => exact ⟨[], stored_nil, Or.inl rfl⟩
  | succ n ih =>
    by_cases h : (m a).toNat ≤ 4
    · obtain ⟨e, he⟩ := exists_entry h
      obtain ⟨es, hes⟩ := ih (a + BitVec.ofNat 64 e.encode.length)
      exact ⟨e :: es, MpTable.cons_iff.mpr ⟨he, hes⟩⟩
    · refine ⟨[], stored_nil, Or.inr ⟨Nat.succ_pos n, ?_⟩⟩
      simpa using h

end Entries

section Text

theorem byteArg_ne (b : Byte) : b.setWidth 32 ≠ (0x80000000 : BitVec 32) := by bv_omega

theorem bytes_ne (bs : List Byte) : ∀ n ∈ bs.map (BitVec.setWidth 32), n ≠ (0x80000000 : BitVec 32) :=
  List.forall_mem_map.mpr fun b _ => byteArg_ne b

theorem log_isSome {c : LogCall} (ns : List (BitVec 32))
    (h : argsFit (tokens true c.fmt) c.args = true) (hn : numbers (tokens true c.fmt) c.args = ns)
    (hs : ∀ n ∈ ns, n ≠ 0x80000000) : (log true c.level c.fmt c.args).isSome := by
  rw [log]
  split_ifs
  · rfl
  · rw [Option.isSome_map, logFormat_eq, putTokens_isSome_iff, hn]
    exact ⟨h, hs⟩

/-- Whatever the bytes of an entry are, its line can be written. -/
theorem call_isSome {e : MpEntry} {c : LogCall} (h : e.call = some c) :
    (log true c.level c.fmt c.args).isSome := by
  cases e with
  | cpu lapicId lapicVersion flags signature feature reserved =>
    obtain rfl := Option.some.inj h
    exact log_isSome [] rfl rfl (bytes_ne [])
  | bus id name =>
    obtain ⟨-, he⟩ := Option.ite_none_left_eq_some.mp h
    obtain rfl := Option.some.inj he
    exact log_isSome [] rfl rfl (bytes_ne [])
  | ioapic id ver flags addr =>
    obtain rfl := Option.some.inj h
    exact log_isSome _ rfl rfl (bytes_ne [ver])
  | interrupt lint type flags source irq target intn =>
    obtain rfl := Option.some.inj h
    exact log_isSome _ rfl rfl (bytes_ne [type, source, irq, intn])

theorem mptableCall_isSome (m : Memory 64) (mptable : Ptr) :
    (log true (mptableCall m mptable).level (mptableCall m mptable).fmt
      (mptableCall m mptable).args).isSome := by
  have hcount : (entryCount m mptable).setWidth 32 ≠ (0x80000000 : BitVec 32) := by bv_omega
  exact log_isSome _ rfl rfl (List.forall_mem_cons.mpr ⟨byteArg_ne _, List.forall_mem_singleton.mpr hcount⟩)

theorem logText_isSome {cs : List LogCall} (h : ∀ c ∈ cs, (log true c.level c.fmt c.args).isSome) :
    (logText cs).isSome := by
  induction cs with
  | nil => rfl
  | cons c cs ih =>
    obtain ⟨t, ht⟩ := Option.isSome_iff_exists.mp (h c List.mem_cons_self)
    obtain ⟨ts, hts⟩ := Option.isSome_iff_exists.mp (ih fun d hd => h d (List.mem_cons_of_mem c hd))
    rw [logText, ht, hts]
    rfl

theorem entries_isSome {es : List MpEntry} {calls : List LogCall} (h : es.mapM MpEntry.call = some calls) :
    ∀ c ∈ calls, (log true c.level c.fmt c.args).isSome := by
  induction es generalizing calls with
  | nil =>
    obtain rfl := Option.some.inj h
    exact fun c hc => absurd hc List.not_mem_nil
  | cons e es ih =>
    rw [List.mapM_cons] at h
    obtain ⟨c, hc, h⟩ := Option.bind_eq_some_iff.mp h
    obtain ⟨cs, hcs, h⟩ := Option.bind_eq_some_iff.mp h
    obtain rfl := Option.some.inj h
    exact List.forall_mem_cons.mpr ⟨call_isSome hc, ih hcs⟩

end Text

section Search

variable {m : Memory 64} {n i : ℕ}

/-- The places where find_mptable looks, the paragraphs of the first 15 MiB but the very first. -/
def mpPlace (i : ℕ) : Ptr := base + BitVec.ofNat 64 (16 * i)

/-- The first floating pointer structure behind the place `i`, NULL if there is none. -/
def MpFirst (m : Memory 64) (i : ℕ) (ptr : Ptr) : Prop :=
  (ptr = 0 ∧ ∀ j, i < j → j < 0xF0000 → ¬ MpFloating m (mpPlace j)) ∨
    ∃ j, i < j ∧ j < 0xF0000 ∧ ptr = mpPlace j ∧ MpFloating m ptr ∧
      ∀ k, i < k → k < j → ¬ MpFloating m (mpPlace k)

theorem mpPlace_toNat (hi : i ≤ 0xF0000) : (mpPlace i).toNat = base.toNat + 16 * i := by
  have hbase : base.toNat = 0xFFFFFFFFC0000000 := by decide
  rw [mpPlace, BitVec.toNat_add, BitVec.toNat_ofNat, hbase]
  omega

theorem mpPlace_next (i : ℕ) : mpPlace i + 16 = mpPlace (i + 1) := by
  rw [mpPlace, mpPlace, Nat.mul_add, BitVec.ofNat_add, BitVec.add_assoc]
  rfl

theorem limit_le_iff (hi : i ≤ 0xF0000) : base + 0xF00000 ≤ mpPlace i ↔ i = 0xF0000 := by
  have hl : (base + 0xF00000).toNat = base.toNat + 16 * 0xF0000 := by decide
  rw [BitVec.le_def, hl, mpPlace_toNat hi]
  omega

theorem findMptableFrom_first (h : i + n + 1 = 0xF0000) :
    ∃ ptr, findMptableFrom m (base + 0xF00000) (n + 1) (mpPlace i) = some ptr ∧ MpFirst m i ptr := by
  induction n generalizing i with
  | zero =>
    rw [findMptableFrom, mpPlace_next, if_pos ((limit_le_iff (by omega)).mpr (by omega))]
    exact ⟨0, rfl, Or.inl ⟨rfl, fun j hj hj' => by omega⟩⟩
  | succ n ih =>
    have hmore : ¬ base + 0xF00000 ≤ mpPlace (i + 1) := fun hle => by
      have := (limit_le_iff (by omega)).mp hle
      omega
    rw [findMptableFrom, mpPlace_next, if_neg hmore]
    split_ifs with hhit
    · exact ⟨_, rfl, Or.inr ⟨i + 1, by omega, by omega, rfl, hhit, fun k hk hk' => by omega⟩⟩
    · obtain ⟨ptr, hptr, hfirst⟩ := ih (i := i + 1) (by omega)
      have hskip : ∀ k, i < k → ¬ i + 1 < k → ¬ MpFloating m (mpPlace k) := fun k hk hk' => by
        obtain rfl : k = i + 1 := by omega
        exact hhit
      refine ⟨ptr, hptr, ?_⟩
      rcases hfirst with ⟨h0, hnone⟩ | ⟨j, hj, hj', hp, hfl, hnone⟩
      · exact Or.inl ⟨h0, fun k hk hk' => if hn : i + 1 < k then hnone k hn hk' else hskip k hk hn⟩
      · exact Or.inr ⟨j, by omega, hj', hp, hfl, fun k hk hk' =>
          if hn : i + 1 < k then hnone k hn hk' else hskip k hk hn⟩

theorem findMptable_first (m : Memory 64) : ∃ ptr, findMptable m = some ptr ∧ MpFirst m 0 ptr := by
  have hstart : pmmVaddr 0 = mpPlace 0 := by decide
  have hbase : mpPlace 0 = base := by decide
  obtain ⟨ptr, hptr, hfirst⟩ := findMptableFrom_first (m := m) (i := 0) (n := 0xEFFFF) rfl
  refine ⟨ptr, ?_, hfirst⟩
  rw [findMptable, hstart, hbase]
  rw [hbase] at hptr
  exact hptr

/-- What init_acpi logs if it finds a descriptor at the `k`-th even address. -/
def rdspCall (k : ℕ) : LogCall :=
  ⟨logDebug, bytes "found RDSP table at %p", [.word (BitVec.ofNat 64 (2 * k))]⟩

theorem initAcpiFrom_highest (hn : n < 0x80000) : ∃ calls,
    initAcpiFrom m (n + 1) (BitVec.ofNat 64 (2 * n)) = some calls ∧
    ((calls = [] ∧ ∀ k, 0 < k → k ≤ n → ¬ IsRdsp m (BitVec.ofNat 64 (2 * k))) ∨
      ∃ k, 0 < k ∧ k ≤ n ∧ calls = [rdspCall k] ∧ IsRdsp m (BitVec.ofNat 64 (2 * k)) ∧
        ∀ j, k < j → j ≤ n → ¬ IsRdsp m (BitVec.ofNat 64 (2 * j))) := by
  induction n with
  | zero => exact ⟨[], rfl, Or.inl ⟨rfl, fun k hk hk' => by omega⟩⟩
  | succ n ih =>
    have hne : BitVec.ofNat 64 (2 * (n + 1)) ≠ 0 := by bv_omega
    have hnext : BitVec.ofNat 64 (2 * (n + 1)) - 2 = BitVec.ofNat 64 (2 * n) := by bv_omega
    rw [initAcpiFrom, if_neg hne, hnext]
    split_ifs with hhit
    · exact ⟨_, rfl, Or.inr ⟨n + 1, by omega, le_rfl, rfl, hhit, fun j hj hj' => by omega⟩⟩
    · obtain ⟨calls, hcalls, hfirst⟩ := ih (by omega)
      have hskip : ∀ k, ¬ k ≤ n → k ≤ n + 1 → ¬ IsRdsp m (BitVec.ofNat 64 (2 * k)) := fun k hk hk' => by
        obtain rfl : k = n + 1 := by omega
        exact hhit
      refine ⟨calls, hcalls, ?_⟩
      rcases hfirst with ⟨h0, hnone⟩ | ⟨k, hk, hk', hp, hfl, hnone⟩
      · exact Or.inl ⟨h0, fun j hj hj' => if hn : j ≤ n then hnone j hj hn else hskip j hn hj'⟩
      · exact Or.inr ⟨k, hk, by omega, hp, hfl, fun j hj hj' =>
          if hn : j ≤ n then hnone j hj hn else hskip j hn hj'⟩

/-- init_acpi reports the descriptor at the highest even address of the first megabyte, or none. -/
theorem initAcpi_highest (m : Memory 64) : ∃ calls, initAcpi m = some calls ∧
    ((calls = [] ∧ ∀ k, 0 < k → k ≤ 0x7FFFF → ¬ IsRdsp m (BitVec.ofNat 64 (2 * k))) ∨
      ∃ k, 0 < k ∧ k ≤ 0x7FFFF ∧ calls = [rdspCall k] ∧ IsRdsp m (BitVec.ofNat 64 (2 * k)) ∧
        ∀ j, k < j → j ≤ 0x7FFFF → ¬ IsRdsp m (BitVec.ofNat 64 (2 * j))) :=
  initAcpiFrom_highest (by decide)

end Search

/-- ioapic_init over every content of the memory. It hangs if there is no floating pointer structure;
otherwise it takes the first one, logs each entry of its table once and in order, up to the first of
an unknown type, and returns the same pointer for all tables. All its lines can be written; it only
fails at a bus whose name is blank, and at a table that pmm_vaddr does not reach. -/
theorem ioapic_init_lists (m : Memory 64) : ∃ ptr, findMptable m = some ptr ∧ MpFirst m 0 ptr ∧
    (ptr = 0 → ioapicInit m = some (.hangs [⟨3, bytes "no MP table found!", []⟩])) ∧
    (ptr ≠ 0 → mptableOf m ptr = 0 → ioapicInit m = none) ∧
    (ptr ≠ 0 → mptableOf m ptr ≠ 0 → ∃ es,
      MpTable m (mptableOf m ptr + 44) (entryCount m (mptableOf m ptr)).toNat es ∧
      ioapicInit m = (es.mapM MpEntry.call).map
        fun calls => .returns (mptableCall m (mptableOf m ptr) :: calls) ioapicPtr) ∧
    ∀ calls ioapic, ioapicInit m = some (.returns calls ioapic) → (logText calls).isSome := by
  obtain ⟨ptr, hptr, hfirst⟩ := findMptable_first m
  obtain ⟨es, hes⟩ := exists_table m (mptableOf m ptr + 44) (entryCount m (mptableOf m ptr)).toNat
  have hinit : ioapicInit m =
      if ptr = 0 then some (.hangs [⟨3, bytes "no MP table found!", []⟩])
      else if mptableOf m ptr = 0 then none
      else (es.mapM MpEntry.call).map
        fun calls => .returns (mptableCall m (mptableOf m ptr) :: calls) ioapicPtr := by
    rw [ioapicInit, hptr, Option.bind_some, mptableEntries_table hes]
    rfl
  refine ⟨ptr, hptr, hfirst, fun h0 => ?_, fun h0 hm => ?_, fun h0 hm => ⟨es, hes, ?_⟩,
    fun calls ioapic h => ?_⟩
  · rw [hinit, if_pos h0]
  · rw [hinit, if_neg h0, if_pos hm]
  · rw [hinit, if_neg h0, if_neg hm]
  · rw [hinit] at h
    split_ifs at h
    · cases h
    · obtain ⟨lines, hlines, he⟩ := Option.map_eq_some_iff.mp h
      obtain ⟨rfl, -⟩ := IoapicInit.returns.inj he
      exact logText_isSome (List.forall_mem_cons.mpr ⟨mptableCall_isSome m _, entries_isSome hlines⟩)

end Pinion64
