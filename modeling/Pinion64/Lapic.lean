import Pinion64.Lib.Apic
import Pinion64.LongMode
import Pinion64.Turns

/-! The interrupts of the devices: where the registers of the two APICs are found, and what becomes
of the timer. fault writes the EOI register for the timer's vector only. -/
namespace Pinion64
open Transition Apic

section Registers
variable {S : PageSource} {p0 : Paging}

/-- The pointer that apic_init keeps for the core, with the image of pinion at `baseaddr`. -/
def lapicPtr (baseaddr : Ptr) : Ptr := baseaddr - 0x200000 + 0x3EE00000

/-- The pointer that ioapic_init returns, whatever the MP table says. -/
def ioapicPtr : Ptr := pmmVaddr 0xFEC00000

/-- The registers of both APICs stay where the kernel looks for them, whatever is asked of page.c, and
out of the reach of user code. -/
theorem device_registers_found (h0 : S.Delivers (p0.pmmTaken + 258)) (cs : List PagingCall)
    (hd : S.Delivers (answers (Paging.call S) (pcxInit S p0) cs).2.pmmTaken) (x : Word)
    (hx : x.toNat < 0x1000) :
    let p := (answers (Paging.call S) (pcxInit S p0) cs).2
    p.mmu (lapicPtr (base + 0x200000) + x) = some (0xFEE00000 + x, ⟨false, true⟩) ∧
      p.mmu (ioapicPtr + x) = some (0xFEC00000 + x, ⟨false, true⟩) := by
  obtain ⟨-, hrep⟩ := (represents_init p0 h0).answers hd
  have hlapic : (lapicPtr (base + 0x200000) + x).toNat = 0xFFFFFFFFFEE00000 + x.toNat := by
    rw [BitVec.toNat_add]
    change (0xFFFFFFFFFEE00000 + x.toNat) % 2 ^ 64 = _
    omega
  have hioapic : (ioapicPtr + x).toNat = 0xFFFFFFFFFEC00000 + x.toNat := by
    rw [BitVec.toNat_add]
    change (0xFFFFFFFFFEC00000 + x.toNat) % 2 ^ 64 = _
    omega
  have hwindow : ∀ a : Word, 0xFFFFFFFFFEC00000 ≤ a.toNat → InPinion a ∧
      windowAddr a = a - base + 0xC0000000 := by
    intro a ha
    have hbase : base.toNat = 0xFFFFFFFFC0000000 := rfl
    refine ⟨?_, if_neg (by omega)⟩
    change base.toNat ≤ a.toNat
    omega
  have hmove : ∀ c d : Word, c - base + 0xC0000000 = d → c + x - base + 0xC0000000 = d + x := by
    rintro c d rfl
    simp only [BitVec.sub_eq_add_neg]
    ac_rfl
  constructor
  · obtain ⟨hin, haddr⟩ := hwindow _ (by rw [hlapic]; omega)
    rw [hrep.window hd hin, haddr, hmove _ 0xFEE00000 (by decide)]
  · obtain ⟨hin, haddr⟩ := hwindow _ (by rw [hioapic]; omega)
    rw [hrep.window hd hin, haddr, hmove _ 0xFEC00000 (by decide)]

/-- After the first page has been entered. -/
theorem device_registers_found_eoi : (answers (Paging.call lowMemory) (pcxInit lowMemory bootPaging)
    [.setFrame 0x400000 0x1000 0x201000 0x7]).2.mmu (lapicPtr (base + 0x200000) + 0xB0) =
      some (0xFEE000B0, ⟨false, true⟩) :=
  (device_registers_found (lowMemory_delivers (by decide)) _
    (boot_delivers 0x400000 0x201000 0x7 [] fun _ => rfl) 0xB0 (by decide)).1

end Registers

section Timer
variable {P : Platform}

/-- The core with its LAPIC. -/
structure Board where
  sys : Sys
  inService : Finset ℕ
  /-- The interrupts of devices that have come in. -/
  irqs : List (BitVec 32)

inductive Signal
  /-- A step of the threads, or an exception. -/
  | sys (e : Event)
  | interrupt (v : BitVec 32)
  /-- With the vector that init has entered for it; it is never in service. -/
  | spurious

/-- The vectors from 32 on come through the LAPIC. -/
def Event.external : Event → Bool
  | interrupt v _ _ => decide (32 ≤ v)
  | _ => false

/-- What fault does to the interrupts in service. -/
def faultEoi (ivect : BitVec 32) (inService : Finset ℕ) : Finset ℕ :=
  if ivect = 32 then eoi inService else inService

def Board.step (P : Platform) (b : Board) : Signal → Option Board
  | .sys e => if e.external then none else (b.sys.step P e).map fun s => { b with sys := s }
  | .interrupt v =>
    if 32 ≤ v ∧ Dispatches b.inService v.toNat then
      (b.sys.step P (.interrupt v 0 0)).map fun s =>
        ⟨s, faultEoi v (insert v.toNat b.inService), if v = 32 then b.irqs else b.irqs ++ [v]⟩
    else none
  | .spurious => (b.sys.step P (.interrupt 33 0 0)).map fun s => { b with sys := s }

/-- An interrupt other than the timer's leaves the core to the thread that has it. -/
theorem irq_active {s s' : Sys} {v : BitVec 32} {er cr2 : Word} (hs : SysSound P s)
    (hst : s.step P (.interrupt v er cr2) = some s') (hv : 32 ≤ v) (hne : v ≠ 32) :
    s'.active = s.active := by
  refine step_other_active hs hst fun he => ?_
  rcases he with he | he
  · exact hne he
  · have hnone : faultQueue v = none := by
      rw [faultQueue, if_neg, if_neg, if_neg (BitVec.not_lt.mpr hv)]
      · rintro rfl
        exact absurd hv (by decide)
      · rintro rfl
        exact absurd hv (by decide)
    rw [hnone] at he
    exact absurd he (by decide)

/-- The interrupts that stay in service are those of the devices. -/
structure Board.Sound (P : Platform) (b : Board) : Prop where
  sys : SysSound P b.sys
  irq : ∀ v ∈ b.irqs, 32 < v
  inService : ∀ n, n ∈ b.inService ↔ ∃ v ∈ b.irqs, v.toNat = n

theorem Board.Sound.dispatches_timer {b : Board} (h : b.Sound P) :
    Dispatches b.inService 32 ↔ b.irqs = [] := by
  constructor
  · intro ha
    refine List.eq_nil_iff_forall_not_mem.mpr fun v hv => ?_
    have hlow := ha v.toNat ((h.inService _).mpr ⟨v, hv, rfl⟩)
    have hhigh := h.irq v hv
    unfold priority at hlow
    bv_omega
  · intro hnil n hn
    obtain ⟨v, hv, -⟩ := (h.inService n).mp hn
    rw [hnil] at hv
    exact absurd hv List.not_mem_nil

theorem Board.Sound.step {b b' : Board} {x : Signal} (h : b.Sound P) (hst : b.step P x = some b') :
    b'.Sound P := by
  cases x with
  | sys e =>
    rw [Board.step, Option.ite_none_left_eq_some, Option.map_eq_some_iff] at hst
    obtain ⟨-, s, hs, rfl⟩ := hst
    exact ⟨(h.sys.step hs).1, h.irq, h.inService⟩
  | spurious =>
    rw [Board.step, Option.map_eq_some_iff] at hst
    obtain ⟨s, hs, rfl⟩ := hst
    exact ⟨(h.sys.step hs).1, h.irq, h.inService⟩
  | interrupt v =>
    rw [Board.step, Option.ite_none_right_eq_some, Option.map_eq_some_iff] at hst
    obtain ⟨⟨hv, ha⟩, s, hs, rfl⟩ := hst
    by_cases h32 : v = 32
    · -- the EOI takes the timer off again
      subst h32
      rw [faultEoi, if_pos rfl, if_pos rfl, eoi_insert ha]
      exact ⟨(h.sys.step hs).1, h.irq, h.inService⟩
    · rw [faultEoi, if_neg h32, if_neg h32]
      refine ⟨(h.sys.step hs).1, fun w hw => ?_, fun n => ?_⟩
      · rcases List.mem_append.mp hw with hw | hw
        · exact h.irq w hw
        · rw [List.mem_singleton.mp hw]
          bv_omega
      · simp only [Finset.mem_insert, h.inService, List.mem_append, List.mem_singleton, or_and_right,
          exists_or, exists_eq_left]
        rw [or_comm, eq_comm]

/-- Preemption lasts until the first interrupt of a device: it stays in service for ever, the LAPIC
holds the timer back from then on, and nothing that comes in takes the core away from its thread. -/
theorem timer_until_irq (b : Boot P) {s : Board} (hr : Run (Board.step P) Free ⟨b.sys, ∅, []⟩ s) :
    (Dispatches s.inService 32 ↔ s.irqs = []) ∧
      (s.irqs ≠ [] → ∀ x s', (∀ e, x ≠ .sys e) → s.step P x = some s' →
        s'.sys.active = s.sys.active) := by
  have hsound : s.Sound P := hr.invariant (I := Board.Sound P)
    ⟨b.sys_sound, fun _ hv => absurd hv List.not_mem_nil, fun n => by simp⟩
    fun _ _ _ h _ hst => h.step hst
  refine ⟨hsound.dispatches_timer, fun hirq x s' hx hst => ?_⟩
  cases x with
  | sys e => exact absurd rfl (hx e)
  | spurious =>
    rw [Board.step, Option.map_eq_some_iff] at hst
    obtain ⟨u, hu, rfl⟩ := hst
    exact irq_active hsound.sys hu (by decide) (by decide)
  | interrupt v =>
    rw [Board.step, Option.ite_none_right_eq_some, Option.map_eq_some_iff] at hst
    obtain ⟨⟨hv, ha⟩, u, hu, rfl⟩ := hst
    refine irq_active hsound.sys hu hv ?_
    rintro rfl
    exact hirq (hsound.dispatches_timer.mp ha)

/-- A tick, a device and then no further tick. -/
theorem timer_until_irq_device : ∃ s : Board, s.irqs = [40] ∧ ¬ Dispatches s.inService 32 := by
  obtain ⟨s, hr, hs⟩ := Run.exists_of_exec (Board.step lowPlatform) ⟨lowBoot.sys, ∅, []⟩
    [.interrupt 32, .interrupt 40] (fun s => decide (s.irqs = [40])) (by decide +kernel)
  have hirq := of_decide_eq_true hs
  exact ⟨s, hirq, fun ha => absurd ((timer_until_irq lowBoot hr).1.mp ha) (by rw [hirq]; simp)⟩

end Timer
end Pinion64
