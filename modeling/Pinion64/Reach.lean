import Pinion64.Boot

/-! The states that the system reaches from the end of init, and the run queue in them. -/
namespace Pinion64
open Intrusive Transition

variable {P : Platform} {s : Sys}

/-- The states that some sequence of events leads to. -/
abbrev Reach (b : Boot P) : Sys → Prop := Run (Sys.step P) Free b.sys

theorem Reach.sound {b : Boot P} (h : Reach b s) : SysSound P s := b.sys_sound.run h

/-- The run queue holds the live threads that are queued, and the idle block if it is, each
once; it never holds the active block. -/
theorem run_queue_coherent (b : Boot P) (h : Reach b s) :
    ∃ run : List Ptr,
      Chain s.kernel.next 0 s.kernel.scheduleHead run ∧
      (run = [] → s.kernel.scheduleHead = 0 ∧ s.kernel.scheduleTail = 0) ∧
      (run ≠ [] → s.kernel.scheduleTail ∈ run ∧ s.kernel.next s.kernel.scheduleTail = 0) ∧
      run.Nodup ∧ s.active ∉ run ∧
      ∀ p, p ∈ run ↔ (s.kernel.Live p ∨ p = P.idleTcb) ∧ s.kernel.state p = tcbStateQueued := by
  have hs := h.sound
  obtain ⟨run, free, hc⟩ := hs.sound
  exact ⟨run, hc.fifo.1,
    fun he => ⟨hc.fifo.eq_nil_iff.mp he, hc.fifo.tail_eq_null_iff.mpr he⟩,
    fun hne => ⟨hc.fifo.tail_mem hne, hc.fifo.next_tail hne⟩,
    hc.fifo.1.nodup, hc.active_not_mem hs.active, hc.queued⟩

section LowMemory

/-- The pages of `lowMemory` in closed form, in which a run is quickly evaluated. -/
def lowPage (k : ℕ) : Ptr :=
  if k < 0x1FE00 then BitVec.ofNat 64 (0xFFFFFFFFC0200000 + 4096 * k) else 0

theorem lowPage_eq (k : ℕ) : lowPage k = lowMemory.page k := by
  apply BitVec.eq_of_toNat_eq
  rw [lowMemory_page, lowPage]
  split_ifs with hk
  · rw [BitVec.toNat_ofNat]
    omega
  · rfl

/-- The pinion image lies below the pages that are handed out. -/
def lowPlatform : Platform where
  pages := {
    page := lowPage
    aligned := fun k => lowPage_eq k ▸ lowMemory.aligned k
    window := fun k hk => by
      rw [lowPage_eq] at hk ⊢
      exact lowMemory.window k hk
    fresh := fun j k he hj => by
      rw [lowPage_eq] at he hj
      rw [lowPage_eq] at he
      exact lowMemory.fresh j k he hj }
  idleTcb := 0xFFFFFFFFC0100000
  idle_ne := by decide
  idle_page k (he : lowPage k = _) := by
    have hp := lowMemory_page k
    rw [← lowPage_eq, he] at hp
    simp only [BitVec.reduceToNat] at hp
    split_ifs at hp
    omega

/-- A boot with empty memory. -/
def lowBoot : Boot lowPlatform where
  ram _ := zeroTcb
  beyond _ := ⟨none, none⟩
  paging := bootPaging
  pages i hi := by
    have hd := (lowMemory_delivers (n := 264) (by decide) i hi).1
    rwa [← lowPage_eq, ← Nat.zero_add i] at hd
  load := id
  load_taken _ := le_rfl
  kernelEntry := 0
  kernelStack := 0
  cr2 := 0

/-- A thread is made, resumed and then preempts its maker. -/
theorem run_queue_coherent_two_threads : ∃ s,
    exec (Sys.step lowPlatform) lowBoot.sys
      [.call .threadCreate, .yield, .ret, .call (.threadResume 2), .interrupt 32 0 0] = some s ∧
    ∃ run : List Ptr,
      Chain s.kernel.next 0 s.kernel.scheduleHead run ∧
      (run = [] → s.kernel.scheduleHead = 0 ∧ s.kernel.scheduleTail = 0) ∧
      (run ≠ [] → s.kernel.scheduleTail ∈ run ∧ s.kernel.next s.kernel.scheduleTail = 0) ∧
      run.Nodup ∧ s.active ∉ run ∧
      ∀ p, p ∈ run ↔ (s.kernel.Live p ∨ p = lowPlatform.idleTcb) ∧
        s.kernel.state p = tcbStateQueued :=
  Run.after_exec (by decide +kernel) fun _ h => run_queue_coherent lowBoot h

end LowMemory
end Pinion64
