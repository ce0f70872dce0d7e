import Pinion64.TrapFrame
import Pinion64.Interrupted

/-! Context switches. The stack of the gates is the end of the active block, so that the frame of a
trap is the state that the kernel works on. -/
namespace Pinion64
open Bytes Intrusive Transition

variable {P : Platform} {k k' : Kernel} {s s' : Sys} {e : Event} {f : Effect} {t p q : Ptr}
  {m m' : Memory 64} {v : BitVec 32}

section Stack

/-- TSS.IST1 after a step. -/
def Effect.ist1 (P : Platform) (k : Kernel) : Effect → Ptr
  | dispatch t => t + 0x100
  | inject => P.idleTcb + 0x100
  | _ => k.tssIst1

theorem Effect.tssIst1 (hs : Sound P k) (he : Enabled P k f) (hk : f.apply P k = some k') :
    k'.tssIst1 = f.ist1 P k := by
  have htable := (Effect.spec hs he hk).table
  cases f with
  | ready t =>
    obtain rfl := Option.some.inj hk
    rw [schedulerPushTcb_eq]
    rfl
  | dispatch t =>
    obtain ⟨pcx, pcxId, hload⟩ := ccbLoadTcb_eq
      (k := (schedulerPullTcb k).2.setState t tcbStateRunning) t
      ((schedulerPullTcb_active k).trans he.1)
    obtain rfl := Option.some.inj hk
    rw [hload]
    rfl
  | inject =>
    obtain ⟨pcx, pcxId, hload⟩ := ccbLoadTcb_eq P.idleTcb he.1
    obtain rfl := Option.some.inj hk
    rw [hload]
    rfl
  | unload =>
    obtain rfl := Option.some.inj hk
    unfold ccbUnloadTcb
    split_ifs <;> rfl
  | block t =>
    obtain ⟨n, hd, tl, hrem, -⟩ := hs.rem he.1 he.2
    rw [Effect.apply, hrem] at hk
    obtain rfl := Option.some.inj hk
    rfl
  | report q t =>
    obtain rfl := Option.some.inj hk
    rw [enqueue_eq]
    rfl
  | fetch q =>
    obtain rfl := Option.some.inj hk
    simp only [getQueued]
    split_ifs <;> rfl
  | wake vec t j =>
    obtain rfl := Option.some.inj hk
    rw [schedulerPushTcb_eq]
    rfl
  | create =>
    obtain ⟨i, t, hc⟩ := htable
    exact hc.step.tssIst1
  | reap t => exact Reaping.step htable |>.tssIst1
  | _ =>
    obtain rfl := Option.some.inj hk
    rfl

/-- The gates push onto the end of the active block. -/
def Kernel.IstSet (k : Kernel) : Prop := k.activeTcb ≠ 0 → k.tssIst1 = k.activeTcb + 0x100

theorem Kernel.IstSet.effect (h : k.IstSet) (hs : Sound P k) (he : Enabled P k f)
    (hk : f.apply P k = some k') : k'.IstSet := by
  intro ha
  have hact := (Effect.spec hs he hk).active
  rw [Effect.tssIst1 hs he hk]
  rw [hact] at ha ⊢
  cases f with
  | unload => exact absurd rfl ha
  | dispatch t => rfl
  | inject => rfl
  | _ => exact h ha

theorem Kernel.IstSet.effects {A : Effect → Prop} (h : k.IstSet) (hs : Sound P k)
    (hr : Effects P A k k') : k'.IstSet :=
  hr.keep (I := Kernel.IstSet) h hs fun _ _ _ ha hsa he _ hb => ha.effect hsa he hb

theorem Boot.istSet (b : Boot P) : (init b).IstSet := by
  obtain ⟨k₁, hcreate, heff, -⟩ := b.init_effects
  have hs : Sound P b.bare := ⟨_, _, b.bare_coherent⟩
  have happ : Effect.apply P b.bare .create = some k₁ := by rw [Effect.apply, hcreate]
  have hbare : b.bare.IstSet := fun ha => absurd rfl ha
  have hs₁ : Sound P k₁ := hs.effects (A := fun _ => True)
    (.single (e := .create) trivial trivial happ)
  exact (hbare.effect hs (f := .create) trivial happ).effects hs₁ heff

theorem Reach.istSet {b : Boot P} (h : Reach b s) : s.kernel.IstSet := by
  have hboth : SysSound P s ∧ s.kernel.IstSet :=
    h.invariant (I := fun a => SysSound P a ∧ a.kernel.IstSet) ⟨b.sys_sound, b.istSet⟩
      fun a e c ha _ hst => by
        obtain ⟨hc, heff⟩ := ha.1.step hst
        exact ⟨hc, ha.2.effects ha.1.sound heff⟩
  exact hboth.2

end Stack

section Blocks

theorem Kernel.Live.aligned (h : k.Live p) (hs : Sound P k) : p.toNat % 4096 = 0 := by
  obtain ⟨run, free, hc⟩ := hs
  obtain ⟨j, -, rfl⟩ := hc.page p (Or.inl h)
  exact P.pages.aligned j

/-- A block depends on its own bytes only. -/
theorem tcbAt_congr (h : ∀ o : Word, o.toNat < 0x100 → m' (p + o) = m (p + o)) :
    tcbAt m' p = tcbAt m p := by
  have hread : ∀ (o : Word) (n : ℕ), o.toNat + n ≤ 0x100 → readLE m' (p + o) n = readLE m (p + o) n := by
    intro o n hn
    refine readLE_eq_of_within (by omega) fun x hx => ?_
    have hin := (within_offset (by omega)).mp hx
    have hx : p + (x - p) = x := by ring
    rw [← hx]
    exact h _ (by omega)
  have h0 : readLE m' p 2 = readLE m p 2 := by
    have h0 := hread 0 2 (by simp)
    simpa using h0
  have htap : ∀ i : Fin 4, readLE m' (p + (0x10 + BitVec.ofNat 64 (2 * i))) 2 =
      readLE m (p + (0x10 + BitVec.ofNat 64 (2 * i))) 2 := by
    intro i
    refine hread _ 2 ?_
    revert i
    decide
  simp (disch := decide) only [tcbAt, read16, read32, read64, h0, htap, hread]

theorem same_tcbAt (h : SameBut p 0x48 0x100 m m') (hp : p.toNat % 4096 = 0)
    (hq : q.toNat % 4096 = 0) (hne : q ≠ p) : tcbAt m' q = tcbAt m q := by
  refine tcbAt_congr fun o ho => h _ fun hin => hne ?_
  bv_omega

/-- The fields of a block, by their sizes. -/
def Tcb.words (t : Tcb) : List (Word × BitVec (8 * 8)) :=
  [(0x28, t.next), (0x38, t.faultAddr), (0x40, t.gs)] ++ regWords t.regs ++
    [(0xC0, t.xstate), (0xD0, t.error)] ++ frameWords t.regs

def Tcb.dwords (t : Tcb) : List (Word × BitVec (8 * 4)) :=
  [(0x04, t.id), (0x30, t.pcxId), (0xC8, t.ivect), (0xCC, t.saved)]

def Tcb.halves (t : Tcb) : List (Word × BitVec (8 * 2)) :=
  [(0x00, t.reserved0), (0x02, t.state)] ++ [0x10, 0x12, 0x14, 0x16].zip (slots.map t.tap)

def writeTcb (m : Memory 64) (p : Ptr) (t : Tcb) : Memory 64 :=
  writeAll (writeAll (writeAll m p t.words) p t.dwords) p t.halves

section WriteTcb
variable {b : Tcb} {o : Word}

def wordOffsets : List Word :=
  [0x28, 0x38, 0x40, 0x48, 0x50, 0x58, 0x60, 0x68, 0x70, 0x78, 0x80, 0x88, 0x90, 0x98, 0xA0, 0xA8,
    0xB0, 0xB8, 0xC0, 0xD0, 0xF8, 0xF0, 0xE8, 0xE0, 0xD8]

theorem words_offsets : b.words.map Prod.fst = wordOffsets := rfl

theorem dwords_offsets : b.dwords.map Prod.fst = [0x04, 0x30, 0xC8, 0xCC] := rfl

theorem halves_offsets : b.halves.map Prod.fst = [0x00, 0x02, 0x10, 0x12, 0x14, 0x16] := rfl

theorem read64_writeTcb : ∀ x ∈ b.words, read64 (writeTcb m p b) (p + x.1) = x.2 := by
  intro x hx
  have hmem : x.1 ∈ wordOffsets := by
    rw [← words_offsets (b := b)]
    exact List.mem_map_of_mem hx
  have hfit : ∀ o ∈ wordOffsets, o.toNat + 8 ≤ 2 ^ 64 := by simp [wordOffsets]
  have hd : ∀ o ∈ wordOffsets, ∀ o' ∈ ([0x04, 0x30, 0xC8, 0xCC] : List Word),
      o'.toNat + 4 ≤ 2 ^ 64 ∧ Beside 4 o' 8 o := by simp [wordOffsets, Beside]
  have hh : ∀ o ∈ wordOffsets, ∀ o' ∈ ([0x00, 0x02, 0x10, 0x12, 0x14, 0x16] : List Word),
      o'.toNat + 2 ≤ 2 ^ 64 ∧ Beside 2 o' 8 o := by simp [wordOffsets, Beside]
  calc read64 (writeTcb m p b) (p + x.1)
      = read64 (writeAll (writeAll m p b.words) p b.dwords) (p + x.1) :=
        readLE_writeAll_apart (fun o' ho => hh _ hmem o' (halves_offsets ▸ ho)) (hfit _ hmem)
    _ = read64 (writeAll m p b.words) (p + x.1) :=
        readLE_writeAll_apart (fun o' ho => hd _ hmem o' (dwords_offsets ▸ ho)) (hfit _ hmem)
    _ = x.2 := read64_words words_offsets (by simp [wordOffsets, Beside]) hfit x hx

theorem read32_writeTcb : ∀ x ∈ b.dwords, read32 (writeTcb m p b) (p + x.1) = x.2 := by
  intro x hx
  have hmem : x.1 ∈ ([0x04, 0x30, 0xC8, 0xCC] : List Word) := by
    rw [← dwords_offsets (b := b)]
    exact List.mem_map_of_mem hx
  have hfit : ∀ o ∈ ([0x04, 0x30, 0xC8, 0xCC] : List Word), o.toNat + 4 ≤ 2 ^ 64 := by simp
  have hh : ∀ o ∈ ([0x04, 0x30, 0xC8, 0xCC] : List Word),
      ∀ o' ∈ ([0x00, 0x02, 0x10, 0x12, 0x14, 0x16] : List Word),
      o'.toNat + 2 ≤ 2 ^ 64 ∧ Beside 2 o' 4 o := by simp [Beside]
  calc read32 (writeTcb m p b) (p + x.1)
      = read32 (writeAll (writeAll m p b.words) p b.dwords) (p + x.1) :=
        readLE_writeAll_apart (fun o' ho => hh _ hmem o' (halves_offsets ▸ ho)) (hfit _ hmem)
    _ = x.2 := readLE_writeAll hx (by rw [dwords_offsets]; simp [Beside])
        (by rw [dwords_offsets]; exact hfit)

theorem read16_writeTcb : ∀ x ∈ b.halves, read16 (writeTcb m p b) (p + x.1) = x.2 := by
  intro x hx
  exact readLE_writeAll hx (by rw [halves_offsets]; simp [Beside]) (by rw [halves_offsets]; simp)

/-- The fields of a block do not overlap. -/
theorem tcbAt_writeTcb (m : Memory 64) (p : Ptr) (b : Tcb) : tcbAt (writeTcb m p b) p = b := by
  have h64 := read64_writeTcb (m := m) (p := p) (b := b)
  have h32 := read32_writeTcb (m := m) (p := p) (b := b)
  have h16 := read16_writeTcb (m := m) (p := p) (b := b)
  generalize writeTcb m p b = m' at h64 h32 h16 ⊢
  simp only [Tcb.words, regWords, frameWords, List.cons_append, List.nil_append,
    List.forall_mem_cons] at h64
  simp only [Tcb.dwords, List.forall_mem_cons] at h32
  simp only [Tcb.halves, slots, List.map_cons, List.map_nil, List.zip_cons_cons, List.zip_nil_left,
    List.cons_append, List.nil_append, List.forall_mem_cons] at h16
  have h0 : read16 m' p = b.reserved0 := by simpa using h16.1
  have htap : (fun i : Fin 4 => read16 m' (p + (0x10 + BitVec.ofNat 64 (2 * i)))) = b.tap := by
    have hall : ∀ i ∈ slots, read16 m' (p + (0x10 + BitVec.ofNat 64 (2 * i))) = b.tap i := by
      simp only [slots, List.forall_mem_cons]
      exact ⟨h16.2.2.1, h16.2.2.2.1, h16.2.2.2.2.1, h16.2.2.2.2.2.1, fun _ h => absurd h List.not_mem_nil⟩
    funext i
    exact hall i (mem_slots i)
  simp only [tcbAt, h0, htap, h64, h32, h16]

end WriteTcb

/-- The blocks of the threads, as they lie in memory. -/
def Kernel.In (k : Kernel) (m : Memory 64) : Prop := ∀ p, k.Live p → tcbAt m p = k.tcb p

/-- Some memory holds the blocks. -/
theorem Sound.exists_in (hs : Sound P k) : ∃ m, k.In m := by
  let page (a : Ptr) : Ptr := BitVec.ofNat 64 (a.toNat / 4096 * 4096)
  refine ⟨fun a => writeTcb (fun _ => 0) (page a) (k.tcb (page a)) a, fun p hl => ?_⟩
  have hp := hl.aligned hs
  refine (tcbAt_congr fun o ho => ?_).trans (tcbAt_writeTcb (fun _ => 0) p (k.tcb p))
  have hpage : page (p + o) = p := by
    apply BitVec.eq_of_toNat_eq
    have hlt := p.isLt
    rw [BitVec.toNat_ofNat, BitVec.toNat_add, Nat.mod_eq_of_lt (a := p.toNat + o.toNat) (by omega)]
    omega
  simp only [hpage]

end Blocks

section Refinement

/-- The vector through which an event enters the kernel, and what comes with it. -/
def Event.vector : Event → Option (BitVec 32)
  | .interrupt v _ _ => some v
  | .yield => some 0x100
  | _ => none

def Event.error : Event → Word
  | .interrupt _ error _ => error
  | _ => 0

theorem Sys.trap_cases (hv : e.vector = some v) (hst : s.step P e = some s') :
    ∃ s₁ : Sys, s₁.kernel = s.kernel ∧ s₁.cpu = (s.struck e).cpu ∧
      s' = s₁.enter P v (if v ∈ errorVectors then e.error else 0) := by
  have hrun := Sys.step_running hst
  cases e with
  | interrupt w er cr2 =>
    obtain rfl := Option.some.inj hv
    have hin : Installed w := (Sys.interrupt_cases hst).1
    simp only [Sys.step, if_neg hrun, if_pos hin] at hst
    refine ⟨s.struck (.interrupt w er cr2), ?_, rfl, (Option.some.inj hst).symm⟩
    rw [Sys.struck]
    split_ifs <;> rfl
  | yield =>
    obtain rfl := Option.some.inj hv
    rcases Sys.yield_cases hst with ⟨hu, -, rfl⟩ | ⟨x, hp, rfl⟩
    · refine ⟨s, rfl, ?_, rfl⟩
      rw [Sys.struck, Sys.yieldRegs, hu]
    · refine ⟨({ s with cpu := { s.cpu with rdi := x.yieldCode } } : Sys).setPos s.active (.ret x),
        rfl, ?_, rfl⟩
      rw [Sys.struck, Sys.yieldRegs, hp]
      rfl
  | _ => cases hv

/-- The thread that is loaded at the end of a trap has its registers from its block. -/
theorem enter_cpu (iv : BitVec 32) (error : Word) (hs : Sound P s.kernel) (ha : s.active ≠ 0)
    (hi : (s.enter P iv error).active ≠ P.idleTcb) :
    (s.enter P iv error).cpu =
      ((s.enter P iv error).kernel.tcb (s.enter P iv error).active).regs := by
  let k₀ := saveState s.kernel s.cpu iv error
  have hs₀ : Sound P k₀ := hs.effects (A := fun _ => True)
    (.single (e := .regs s.kernel.activeTcb s.cpu iv 0 error) trivial trivial rfl)
  obtain ⟨-, hend⟩ := fault_effects hs₀ ha
  obtain ⟨hregs, -⟩ := enter_regs s iv error hi hend.idle fun hf => (hend.hang hf).1
  rwa [Sys.threadRegs_of_eq rfl] at hregs

theorem saveState_self (k : Kernel) (cpu : Regs) (iv : BitVec 32) (error : Word) :
    (saveState k cpu iv error).tcb k.activeTcb = { k.tcb k.activeTcb with
      regs := cpu, ivect := iv, saved := 0, error := error } :=
  Kernel.updTcb_self ..

/-- A trap of a thread, byte by byte: with the blocks of the threads in memory, the gate, the stub and
save_state_full hand fault the block of the thread as the kernel's step expects it, and touch no other
thread's; and resume_state_full loads the thread that is active then. -/
theorem trap_refined (b : Boot P) (h : Reach b s) (hv : e.vector = some v) (h8 : v ≠ 8)
    (hst : s.step P e = some s') (ha : s.active ≠ P.idleTcb) (hm : s.kernel.In m) (gate : Gate)
    (entry : Word) :
    let r := (⟨m, (s.struck e).cpu⟩ : Cpu).trap gate s.kernel.tssIst1 entry v e.error
    (∃ k : Kernel, k.In r.1 ∧ r.2 = s.active ∧ s'.kernel = (fault P k r.2).1) ∧
      (s'.active ≠ P.idleTcb → ∀ m', s'.kernel.In m' → s'.cpu = resumeStateFull m' s'.active) := by
  have hs := h.sound
  have hs' := (hs.step hst).1
  have hlive : s.kernel.Live s.active := by
    obtain ⟨run, free, hc⟩ := hs.sound
    exact (hc.active.resolve_left hs.active).1.resolve_right ha
  have hp := hlive.aligned hs.sound
  have hist : s.kernel.tssIst1 = s.active + 0x100 := h.istSet hs.active
  obtain ⟨hblock, harg, hrest⟩ := trap_frame (c := ⟨m, (s.struck e).cpu⟩) (p := s.active) gate entry
    e.error (by omega) h8
  obtain ⟨s₁, hk₁, hcpu₁, rfl⟩ := Sys.trap_cases hv hst
  rw [hist]
  refine ⟨⟨saveState s.kernel (s.struck e).cpu v (if v ∈ errorVectors then e.error else 0), ?_, harg,
    ?_⟩, fun hi m' hm' => ?_⟩
  · intro q hq
    have hq' : s.kernel.Live q := hq
    by_cases hqa : q = s.active
    · rw [hqa]
      refine hblock.trans ?_
      rw [hm _ hlive]
      exact (saveState_self s.kernel _ v _).symm
    · refine (same_tcbAt hrest hp (hq'.aligned hs.sound) hqa).trans ((hm q hq').trans ?_)
      exact (Kernel.updTcb_of_ne _ _ _ _ hqa).symm
  · rw [enter_kernel, hk₁, hcpu₁, harg]
    rfl
  · rw [resumeStateFull_eq, hm', enter_cpu]
    · rw [hk₁]
      exact hs.sound
    · rw [Sys.active, hk₁]
      exact hs.active
    · exact hi
    · obtain ⟨run, free, hc⟩ := hs'.sound
      exact (hc.active.resolve_left hs'.active).1.resolve_right hi

/-- The first thread is interrupted by the timer, and is loaded again. -/
theorem trap_refined_first_thread : ∃ m s', lowBoot.sys.kernel.In m ∧
    lowBoot.sys.step lowPlatform (.interrupt 32 0 0) = some s' ∧
    ∀ m', s'.kernel.In m' → s'.cpu = resumeStateFull m' s'.active := by
  obtain ⟨m, hm⟩ := lowBoot.sys_sound.sound.exists_in
  obtain ⟨s', hst, hi⟩ := (Option.any_eq_true (fun a : Sys => decide (a.active ≠ lowPlatform.idleTcb))
    (lowBoot.sys.step lowPlatform (.interrupt 32 0 0))).mp (by decide +kernel)
  exact ⟨m, s', hm, hst, (trap_refined lowBoot .refl rfl (by decide) hst (by decide +kernel) hm .irq
    0).2 (of_decide_eq_true hi)⟩

end Refinement
end Pinion64
