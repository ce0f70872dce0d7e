import Pinion64.TrapFrame

/-! The interrupt descriptor table that idt_init builds, as the CPU reads it. -/
namespace Pinion64
open Bytes

section Definitions

/-- The type and the stack with which a gate is entered. -/
def Gate.word : Gate → BitVec 16
  | trap => 0x8F01
  | irq => 0x8E01

/-- idt_set_trap_vector and idt_set_irq_vector; the last four bytes of an entry are left as they
are. -/
def idtSetVector (gate : Gate) (idt : Ptr) (m : Memory 64) (rdi rsi : Word) : Memory 64 :=
  let rcx := idt + (rsi <<< 4)
  let m := writeLE (n := 2) m rcx (rdi.setWidth 16)
  let m := writeLE (n := 2) m (rcx + 0x02) 0x0008
  let m := writeLE (n := 2) m (rcx + 0x04) gate.word
  let m := writeLE (n := 2) m (rcx + 0x06) ((rdi >>> 16).setWidth 16)
  writeLE (n := 4) m (rcx + 0x08) ((rdi >>> 16 >>> 16).setWidth 32)

/-- The addresses of the stubs. -/
structure Handlers where
  fault : BitVec 32 → Word
  irq : BitVec 32 → Word
  yield : Word

/-- The page is used as pge_alloc returns it. -/
def idtInit (H : Handlers) (idt : Ptr) (m : Memory 64) : Memory 64 :=
  let m := faultVectors.foldl (fun m v => idtSetVector .trap idt m (H.fault v) (v.setWidth 64)) m
  let m := (List.range' 32 (255-32)).foldl (fun m i =>
    idtSetVector .irq idt m (H.irq (BitVec.ofNat 32 i)) (BitVec.ofNat 64 i)) m
  idtSetVector .trap idt m H.yield 255

structure Descriptor where
  offset : Word
  selector : BitVec 16
  ist : BitVec 3
  kind : BitVec 4
  dpl : BitVec 2
  present : Bool

/-- An entry as the CPU reads it. -/
def descriptorAt (m : Memory 64) (a : Ptr) : Descriptor :=
  let word := read16 m (a + 0x04)
  { offset := (read32 m (a + 0x08)) ++ (read16 m (a + 0x06) ++ read16 m a)
    selector := read16 m (a + 0x02)
    ist := word.extractLsb' 0 3
    kind := word.extractLsb' 8 4
    dpl := word.extractLsb' 13 2
    present := word.getLsbD 15 }

/-- The gate through which an interrupt goes, and where it goes. -/
def Descriptor.gate (d : Descriptor) : Option (Gate × Word) :=
  if d.present = true ∧ d.selector = 0x08 ∧ d.ist = 1 ∧ d.dpl = 0 then
    if d.kind = 0xF then some (.trap, d.offset)
    else if d.kind = 0xE then some (.irq, d.offset)
    else none
  else none

/-- The stub of a vector, with its gate. -/
def Handlers.gate (H : Handlers) (v : BitVec 32) : Gate × Word :=
  if v = 255 then (.trap, H.yield)
  else if v < 32 then (.trap, H.fault v)
  else (.irq, H.irq v)

end Definitions

variable {m m' : Memory 64} {idt : Ptr} {H : Handlers}

section Entry

/-- The four words of an entry that are written one by one. -/
def entryWords (gate : Gate) (rdi : Word) : List (Ptr × BitVec (8 * 2)) :=
  [(0, rdi.setWidth 16), (0x02, 0x0008), (0x04, gate.word), (0x06, (rdi >>> 16).setWidth 16)]

theorem idtSetVector_eq (gate : Gate) (m : Memory 64) (rdi rsi : Word) :
    idtSetVector gate idt m rdi rsi = writeLE (n := 4)
      (writeAll m (idt + (rsi <<< 4)) (entryWords gate rdi)) (idt + (rsi <<< 4) + 0x08)
      ((rdi >>> 16 >>> 16).setWidth 32) := by
  simp only [idtSetVector, entryWords, writeAll, add_zero]

theorem entryWords_apart (gate : Gate) (rdi : Word) :
    ((entryWords gate rdi).map Prod.fst).Pairwise (Beside 2 · 2) := by
  change [(0 : Ptr), 0x02, 0x04, 0x06].Pairwise (Beside 2 · 2)
  decide

theorem entryWords_low (gate : Gate) (rdi : Word) :
    ∀ o ∈ (entryWords gate rdi).map Prod.fst, 0 ≤ o.toNat ∧ o.toNat + 2 ≤ 8 := by
  simp [entryWords]

/-- An entry is read back as it was written. -/
theorem gate_idtSetVector (gate : Gate) (m : Memory 64) (rdi rsi : Word) :
    (descriptorAt (idtSetVector gate idt m rdi rsi) (idt + (rsi <<< 4))).gate = some (gate, rdi) := by
  rw [idtSetVector_eq]
  generalize idt + (rsi <<< 4) = a
  have hword : ∀ x ∈ entryWords gate rdi, read16 (writeLE (n := 4)
      (writeAll m a (entryWords gate rdi)) (a + 0x08) ((rdi >>> 16 >>> 16).setWidth 32))
        (a + x.1) = x.2 := by
    intro x hx
    have hlow := entryWords_low gate rdi x.1 (List.mem_map_of_mem hx)
    have hsame := (sameBut_writeLE (m := writeAll m a (entryWords gate rdi)) (a := a)
      (o := 0x08) (n := 4) (v := (rdi >>> 16 >>> 16).setWidth 32) (by decide)).readLE
        (o := x.1) (k := 2) (by omega) (Or.inl hlow.2)
    exact hsame.trans (readLE_writeAll hx (entryWords_apart gate rdi) fun o ho => by
      have := entryWords_low gate rdi o ho
      omega)
  have h0 := hword (0, rdi.setWidth 16) (by simp [entryWords])
  have h2 := hword (0x02, 0x0008) (by simp [entryWords])
  have h4 := hword (0x04, gate.word) (by simp [entryWords])
  have h6 := hword (0x06, (rdi >>> 16).setWidth 16) (by simp [entryWords])
  have h8 : read32 (writeLE (n := 4) (writeAll m a (entryWords gate rdi)) (a + 0x08)
      ((rdi >>> 16 >>> 16).setWidth 32)) (a + 0x08) = (rdi >>> 16 >>> 16).setWidth 32 :=
    readLE_writeLE _ _ _ (by decide)
  generalize writeLE (n := 4) (writeAll m a (entryWords gate rdi)) (a + 0x08)
      ((rdi >>> 16 >>> 16).setWidth 32) = m' at h0 h2 h4 h6 h8 ⊢
  simp only [add_zero] at h0
  have hoffset : (rdi >>> 16 >>> 16).setWidth 32 ++ ((rdi >>> 16).setWidth 16 ++ rdi.setWidth 16) =
      rdi := by
    apply BitVec.eq_of_getLsbD_eq
    intro i hi
    simp only [BitVec.getLsbD_append, BitVec.getLsbD_setWidth, BitVec.getLsbD_ushiftRight]
    by_cases h1 : i < 16
    · simp [h1, show i < 32 by omega]
    · by_cases h2 : i < 32
      · simp [h1, h2, show i - 16 < 16 by omega, show 16 + (i - 16) = i by omega]
      · simp [h2, show i - 32 < 32 by omega, show 16 + (16 + (i - 32)) = i by omega]
  rw [Descriptor.gate, descriptorAt, h0, h2, h4, h6, h8, hoffset]
  cases gate <;> rfl

theorem entry_toNat {v : BitVec 32} (hv : v.toNat < 256) :
    (v.setWidth 64 <<< 4 : Word).toNat = 16 * v.toNat := by
  rw [BitVec.toNat_shiftLeft, BitVec.toNat_setWidth, Nat.shiftLeft_eq]
  omega

/-- The others are left alone, and so are the last four bytes. -/
theorem sameBut_idtSetVector (gate : Gate) (m : Memory 64) (rdi : Word) {v : BitVec 32}
    (hv : v.toNat < 256) : SameBut idt (16 * v.toNat) (16 * v.toNat + 12) m
      (idtSetVector gate idt m rdi (v.setWidth 64)) := by
  rw [idtSetVector_eq]
  have hshift := entry_toNat hv
  have hentry : SameBut (idt + (v.setWidth 64 <<< 4)) 0 12 m (writeLE (n := 4)
      (writeAll m (idt + (v.setWidth 64 <<< 4)) (entryWords gate rdi))
        (idt + (v.setWidth 64 <<< 4) + 0x08) ((rdi >>> 16 >>> 16).setWidth 32)) := by
    have hwords : SameBut (idt + (v.setWidth 64 <<< 4)) 0 8 m
        (writeAll m (idt + (v.setWidth 64 <<< 4)) (entryWords gate rdi)) :=
      sameBut_writeAll (entryWords_low gate rdi) (by decide)
    exact (hwords.mono le_rfl (by decide)).trans
      ((sameBut_writeLE (by decide)).mono (by decide) (by decide))
  have hfield := hentry.field (by omega)
  rwa [hshift] at hfield

/-- An entry depends on its own bytes only. -/
theorem descriptorAt_congr {a : Ptr} (h : ∀ x, Within a 12 x → m' x = m x) :
    descriptorAt m' a = descriptorAt m a := by
  have hfield : ∀ (o : Ptr) (n : ℕ), o.toNat + n ≤ 12 → readLE m' (a + o) n = readLE m (a + o) n :=
    fun o n ho => readLE_eq_of_within (by omega) fun x hx => h x (within_field o hx ho (by decide))
  have h0 := hfield 0 2 (by decide)
  have h2 := hfield 0x02 2 (by decide)
  have h4 := hfield 0x04 2 (by decide)
  have h6 := hfield 0x06 2 (by decide)
  have h8 := hfield 0x08 4 (by decide)
  rw [add_zero] at h0
  simp only [descriptorAt, read16, read32, h0, h2, h4, h6, h8]

end Entry

section Table

/-- One entry, by its vector. -/
def idtWrite (H : Handlers) (idt : Ptr) (m : Memory 64) (v : BitVec 32) : Memory 64 :=
  idtSetVector (H.gate v).1 idt m (H.gate v).2 (v.setWidth 64)

/-- The vectors in the order in which idt_init goes through them. -/
def idtVectors : List (BitVec 32) :=
  faultVectors ++ ((List.range' 32 (255-32)).map (BitVec.ofNat 32) ++ [255])

theorem mem_irqs {v : BitVec 32} :
    v ∈ (List.range' 32 (255-32)).map (BitVec.ofNat 32) ↔ 32 ≤ v ∧ v < 255 := by
  simp only [List.mem_map, List.mem_range', BitVec.le_def, BitVec.lt_def, BitVec.reduceToNat]
  constructor
  · rintro ⟨i, ⟨k, hk, rfl⟩, rfl⟩
    rw [BitVec.toNat_ofNat]
    omega
  · rintro ⟨h1, h2⟩
    exact ⟨v.toNat, ⟨v.toNat - 32, by omega, by omega⟩, BitVec.ofNat_toNat 32 v⟩

theorem faultVectors_lt {v : BitVec 32} (hv : v ∈ faultVectors) : v < 32 := by
  have hmem : v.toNat ∈ [0, 1, 2, 3, 4, 5, 6, 7, 8, 10, 11, 12, 13, 14, 16, 17, 18, 19] :=
    List.mem_map_of_mem hv
  have hall : ∀ n ∈ [0, 1, 2, 3, 4, 5, 6, 7, 8, 10, 11, 12, 13, 14, 16, 17, 18, 19], n < 32 := by
    decide
  exact hall _ hmem

theorem mem_idtVectors {v : BitVec 32} : v ∈ idtVectors ↔ v = 255 ∨ Installed v := by
  rw [idtVectors, List.mem_append, List.mem_append, List.mem_singleton, mem_irqs, Installed]
  constructor
  · rintro (h | h | h)
    · exact Or.inr (Or.inl h)
    · exact Or.inr (Or.inr h)
    · exact Or.inl h
  · rintro (h | h | h)
    · exact Or.inr (Or.inr h)
    · exact Or.inl h
    · exact Or.inr (Or.inl h)

theorem idtVectors_lt {v : BitVec 32} (hv : v ∈ idtVectors) : v.toNat < 256 := by
  rcases mem_idtVectors.mp hv with rfl | hv | ⟨-, hv⟩
  · decide
  · have hlt : v.toNat < 32 := faultVectors_lt hv
    omega
  · have hlt : v.toNat < 255 := hv
    omega

theorem idtVectors_nodup : idtVectors.Nodup := by
  have hirqs : ((List.range' 32 (255-32)).map (BitVec.ofNat 32)).Nodup := by
    refine List.Nodup.map_on (fun i hi j hj he => ?_) List.nodup_range'
    obtain ⟨a, ha, rfl⟩ := List.mem_range'.mp hi
    obtain ⟨b, hb, rfl⟩ := List.mem_range'.mp hj
    have hn := congrArg BitVec.toNat he
    rw [BitVec.toNat_ofNat, BitVec.toNat_ofNat] at hn
    omega
  have hfaults : faultVectors.Nodup := by
    refine List.Nodup.of_map BitVec.toNat ?_
    change [0, 1, 2, 3, 4, 5, 6, 7, 8, 10, 11, 12, 13, 14, 16, 17, 18, 19].Nodup
    decide
  refine List.nodup_append.mpr ⟨hfaults, List.nodup_append.mpr ⟨hirqs, by simp, ?_⟩, ?_⟩
  · rintro v hv u hu rfl
    rw [List.mem_singleton] at hu
    subst hu
    exact absurd (mem_irqs.mp hv).2 (by decide)
  · rintro v hv u hu rfl
    have hlt := faultVectors_lt hv
    rcases List.mem_append.mp hu with hu | hu
    · exact absurd (mem_irqs.mp hu).1 (BitVec.not_le.mpr hlt)
    · rw [List.mem_singleton] at hu
      subst hu
      exact absurd hlt (by decide)

theorem gate_fault {v : BitVec 32} (hv : v ∈ faultVectors) : H.gate v = (.trap, H.fault v) := by
  have hlt := faultVectors_lt hv
  rw [Handlers.gate, if_neg, if_pos hlt]
  rintro rfl
  exact absurd hlt (by decide)

theorem gate_irq {v : BitVec 32} (h1 : 32 ≤ v) (h2 : v < 255) : H.gate v = (.irq, H.irq v) := by
  rw [Handlers.gate, if_neg, if_neg (BitVec.not_lt.mpr h1)]
  rintro rfl
  exact absurd h2 (by decide)

theorem idtInit_eq (m : Memory 64) : idtInit H idt m = idtVectors.foldl (idtWrite H idt) m := by
  have hfaults : ∀ m : Memory 64, faultVectors.foldl (idtWrite H idt) m =
      faultVectors.foldl (fun m v => idtSetVector .trap idt m (H.fault v) (v.setWidth 64)) m := by
    refine fun m => List.foldl_ext _ _ _ fun m v hv => ?_
    rw [idtWrite, gate_fault hv]
  have hirqs : ∀ m : Memory 64, ((List.range' 32 (255-32)).map (BitVec.ofNat 32)).foldl
      (idtWrite H idt) m = (List.range' 32 (255-32)).foldl (fun m i =>
        idtSetVector .irq idt m (H.irq (BitVec.ofNat 32 i)) (BitVec.ofNat 64 i)) m := by
    intro m
    rw [List.foldl_map]
    refine List.foldl_ext _ _ _ fun m i hi => ?_
    have hmem := mem_irqs.mp (List.mem_map_of_mem hi)
    have hwide : (BitVec.ofNat 32 i).setWidth 64 = BitVec.ofNat 64 i := by
      obtain ⟨k, hk, rfl⟩ := List.mem_range'.mp hi
      apply BitVec.eq_of_toNat_eq
      rw [BitVec.toNat_setWidth, BitVec.toNat_ofNat, BitVec.toNat_ofNat]
      omega
    rw [idtWrite, gate_irq hmem.1 hmem.2, hwide]
  rw [idtVectors, List.foldl_append, List.foldl_append, hfaults, hirqs]
  rfl

/-- The bytes that no entry takes stay. -/
theorem idtWrite_keeps {l : List (BitVec 32)} (hl : ∀ v ∈ l, v.toNat < 256) {x : Ptr}
    (hx : ∀ v ∈ l, ¬ (16 * v.toNat ≤ (x - idt).toNat ∧ (x - idt).toNat < 16 * v.toNat + 12)) :
    l.foldl (idtWrite H idt) m x = m x := by
  induction l generalizing m with
  | nil => rfl
  | cons v l ih =>
    have hhead : idtWrite H idt m v x = m x :=
      sameBut_idtSetVector (H.gate v).1 m (H.gate v).2 (hl v (List.mem_cons_self ..)) x
        (hx v (List.mem_cons_self ..))
    exact (ih (fun u hu => hl u (List.mem_cons_of_mem _ hu))
      fun u hu => hx u (List.mem_cons_of_mem _ hu)).trans hhead

theorem gate_idtWrite {l : List (BitVec 32)} (hl : ∀ v ∈ l, v.toNat < 256) (hd : l.Nodup)
    {v : BitVec 32} (hv : v ∈ l) :
    (descriptorAt (l.foldl (idtWrite H idt) m) (idt + (v.setWidth 64 <<< 4))).gate =
      some (H.gate v) := by
  induction l generalizing m with
  | nil => exact absurd hv List.not_mem_nil
  | cons u l ih =>
    obtain ⟨hu, hd⟩ := List.nodup_cons.mp hd
    have hrest := fun u hu => hl u (List.mem_cons_of_mem _ hu)
    rcases List.mem_cons.mp hv with rfl | hv
    · have hv256 := hl v (List.mem_cons_self ..)
      have hsame : descriptorAt (l.foldl (idtWrite H idt) (idtWrite H idt m v))
          (idt + (v.setWidth 64 <<< 4)) =
          descriptorAt (idtWrite H idt m v) (idt + (v.setWidth 64 <<< 4)) := by
        refine descriptorAt_congr fun x hx => idtWrite_keeps hrest fun u hul hc => ?_
        have hin := (within_offset (by rw [entry_toNat hv256]; omega)).mp hx
        rw [entry_toNat hv256] at hin
        have hne : u.toNat ≠ v.toNat := fun he => hu (BitVec.eq_of_toNat_eq he ▸ hul)
        omega
      rw [List.foldl_cons, hsame]
      exact gate_idtSetVector ..
    · exact ih hrest hd hv

end Table

section Delivery

/-- The CPU delivers an interrupt or a trap through the table. -/
def Cpu.deliver (idt ist1 : Ptr) (v : BitVec 32) (error : Word) (c : Cpu) : Option Cpu :=
  (descriptorAt c.mem (idt + (v.setWidth 64 <<< 4))).gate.map fun g =>
    c.enterGate g.1 ist1 g.2 (cpuError v error)

/-- With the page as idt_init leaves it, each installed vector goes through its own gate to its own
stub, on the first of the interrupt stacks. The other entries hold what the page held before, which
nobody has cleared, and nothing behind the page changes. -/
theorem idt_delivers (H : Handlers) (idt : Ptr) (m : Memory 64) :
    (∀ (c : Cpu) (ist1 : Ptr) (v : BitVec 32) (error : Word),
      (∀ x, Within idt 0x1000 x → c.mem x = idtInit H idt m x) → v = 255 ∨ Installed v →
        c.deliver idt ist1 v error =
          some (c.enterGate (H.gate v).1 ist1 (H.gate v).2 (cpuError v error))) ∧
    (∀ v : BitVec 32, v.toNat < 256 → ¬ (v = 255 ∨ Installed v) →
      ∀ x, Within (idt + (v.setWidth 64 <<< 4)) 16 x → idtInit H idt m x = m x) ∧
    ∀ x, ¬ Within idt 0x1000 x → idtInit H idt m x = m x := by
  have hall : ∀ v ∈ idtVectors, v.toNat < 256 := fun v => idtVectors_lt
  refine ⟨fun c ist1 v error hc hv => ?_, fun v hv hno x hx => ?_, fun x hx => ?_⟩
  · have hmem := mem_idtVectors.mpr hv
    have hoffset := entry_toNat (hall v hmem)
    have hsame : descriptorAt c.mem (idt + (v.setWidth 64 <<< 4)) =
        descriptorAt (idtInit H idt m) (idt + (v.setWidth 64 <<< 4)) :=
      descriptorAt_congr fun x hx => hc x (within_field _ hx (by
        have := hall v hmem
        omega) (by decide))
    rw [Cpu.deliver, hsame, idtInit_eq, gate_idtWrite hall idtVectors_nodup hmem]
    rfl
  · rw [idtInit_eq]
    refine idtWrite_keeps hall fun u hu hc => ?_
    have hin := (within_offset (by rw [entry_toNat hv]; omega)).mp hx
    rw [entry_toNat hv] at hin
    have hne : u.toNat ≠ v.toNat := fun he =>
      hno (mem_idtVectors.mp (BitVec.eq_of_toNat_eq he ▸ hu))
    omega
  · rw [idtInit_eq]
    refine idtWrite_keeps hall fun u hu hc => hx ?_
    have := hall u hu
    rw [Within]
    omega

end Delivery
end Pinion64
