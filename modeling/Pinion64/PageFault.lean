import Pinion64.Reports
import Pinion64.PageApi

/-! What fault_get_pagefault tells of the page faults that happened. -/
namespace Pinion64
open Intrusive Transition

section Flags

/-- What page_get answers is made of the bits that pinion.h defines. -/
theorem cookedFlags_eq_word (raw : Word) : ∃ f : PageFlags, cookedFlags raw = f.word := by
  unfold cookedFlags
  split_ifs with hv hp
  · exact ⟨⟨false, false, false, false, false, false, false, false, false⟩, rfl⟩
  · refine ⟨⟨true, false, false, false, false, decide (raw &&& pfAccs ≠ 0),
      decide (raw &&& pfDirty ≠ 0), false, false⟩, ?_⟩
    simp [PageFlags.word, flagIf]
  · refine ⟨⟨true, decide (raw &&& pfNread = 0), decide (raw &&& pfWrite ≠ 0),
      decide (raw &&& pfNx = 0), decide (raw &&& pfUser ≠ 0), decide (raw &&& pfAccs ≠ 0),
      decide (raw &&& pfDirty ≠ 0), decide (raw &&& pfPcd ≠ 0), decide (raw &&& pfPwt ≠ 0)⟩, ?_⟩
    have hvalid : flagIf True pinionPageValid = pinionPageValid := if_pos trivial
    simp only [PageFlags.word, decide_eq_true_eq, hvalid]
    ac_rfl

/-- Only the flags of an unmapped page read the same in both encodings. -/
theorem cookedFlags_self_iff {raw : Word} (hb : raw &&& pfBits = raw)
    (hp : raw = 0 ∨ raw &&& pfPres ≠ 0) : cookedFlags raw = raw ↔ raw = 0 := by
  constructor
  · intro h
    obtain ⟨f, hf⟩ := cookedFlags_eq_word raw
    obtain rfl : raw = f.word := h.symm.trans hf
    clear hf
    revert h hp hb
    revert f
    apply PageFlags.forall_of_bool
    decide +kernel
  · rintro rfl
    decide

/-- A walk answers with the flags of a present entry or with none. -/
theorem pcxGetFlagsFrom_shape (p : Paging) (addr : Word) (n : ℕ) (pt : Ptr) :
    pcxGetFlagsFrom p addr n pt &&& pfBits = pcxGetFlagsFrom p addr n pt ∧
      (pcxGetFlagsFrom p addr n pt = 0 ∨ pcxGetFlagsFrom p addr n pt &&& pfPres ≠ 0) := by
  induction n generalizing pt with
  | zero => exact ⟨BitVec.zero_and, Or.inl rfl⟩
  | succ n ih =>
    simp only [pcxGetFlagsFrom]
    split_ifs with h1 h2
    · exact ⟨by decide, Or.inl rfl⟩
    · refine ⟨?_, Or.inr ?_⟩
      · rw [BitVec.and_assoc, BitVec.and_self]
      · rw [BitVec.and_assoc, show pfBits &&& pfPres = pfPres by decide]
        exact h1
    · exact ih _

theorem apilogicPageGet_flags_iff (p : Paging) (vaddr : Word) :
    (apilogicPageGet p vaddr).flags = pcxGetFlags p 0 vaddr ↔ pcxGetFlags p 0 vaddr = 0 := by
  obtain ⟨h1, h2⟩ := pcxGetFlagsFrom_shape p vaddr 4 p.pcxRoot
  exact cookedFlags_self_iff h1 h2

end Flags

section Fetch

variable (k : Kernel) (q : TcbQueue)

/-- A report tells of the first block in the queue. -/
def pagefaultInfo (t : Ptr) : PagefaultInfo :=
  ⟨(k.tcb t).id, (k.tcb t).faultAddr, pcxGetTrans k.paging 0 (k.tcb t).faultAddr,
    pcxGetFlags k.paging 0 (k.tcb t).faultAddr⟩

theorem apilogicFaultGetPagefault_fst (info : Ptr) :
    (apilogicFaultGetPagefault k info).1 =
      if info = 0 ∨ k.queueHead .pagefault = 0 then none
      else some (pagefaultInfo k (k.queueHead .pagefault)) := by
  unfold apilogicFaultGetPagefault getPagefault
  simp only [getQueued_fst, getQueued_tcb, getQueued_paging]
  by_cases hi : info = 0
  · rw [if_pos hi, if_pos (Or.inl hi)]
  · rw [if_neg hi]
    split_ifs with h1 h2 h2
    · rfl
    · exact absurd (Or.inr h1) h2
    · exact absurd (h2.resolve_left hi) h1
    · rfl

theorem apilogicThreadGet_fst :
    (apilogicThreadGet q k).1 = if k.queueHead q = 0 then 0 else (k.tcb (k.queueHead q)).id := by
  unfold apilogicThreadGet
  simp only [getQueued_fst, getQueued_tcb]
  split_ifs <;> rfl

end Fetch

/-- A page fault that has not been fetched: the block it struck, the thread's id and CR2. -/
structure PageFault where
  thread : Ptr
  id : BitVec 32
  cr2 : Word

/-- The running system with the page faults that have not been fetched, the latest first. -/
structure FaultLog where
  sys : Sys
  faults : List PageFault

namespace FaultLog

/-- The faults without those of a thread. -/
def without (w : FaultLog) (i : BitVec 32) : List PageFault := w.faults.filter fun f => f.id ≠ i

/-- The unfetched faults after an event. -/
def next (w : FaultLog) : Event → List PageFault
  | .interrupt v _ cr2 =>
    if v = 14 then ⟨w.sys.active, (w.sys.kernel.tcb w.sys.active).id, cr2⟩ :: w.faults
    else w.faults
  | .call (.threadGet .pagefault) => w.without (apilogicThreadGetPagefault w.sys.kernel).1
  | .call (.faultGetPagefault info) =>
    match (apilogicFaultGetPagefault w.sys.kernel info).1 with
    | some i => w.without i.thread
    | none => w.faults
  | _ => w.faults

def step (P : Platform) (w : FaultLog) (e : Event) : Option FaultLog :=
  (w.sys.step P e).map fun s => ⟨s, w.next e⟩

/-- The report is that of an unfetched fault and tells of the page what page_get tells. -/
def Faithful (w : FaultLog) (i : PagefaultInfo) : Prop :=
  ∃ f ∈ w.faults, i.thread = f.id ∧ i.vaddr = f.cr2 ∧
    apilogicPageGet w.sys.kernel.paging i.vaddr = ⟨i.paddr, i.flags⟩

/-- No faulted thread is disturbed, and no thread faults on its way to sleep. -/
structure Calm (w : FaultLog) (e : Event) : Prop where
  undisturbed : Undisturbed .pagefault w.sys e
  rest : ∀ er cr2, e = .interrupt 14 er cr2 →
    w.sys.kernel.state w.sys.active ≠ tcbStateWaiting ∧
      w.sys.kernel.state w.sys.active ≠ tcbStateSuspendedWaiting

/-- The fault that is fetched next: its block holds the address, and the page is not mapped. -/
def Told (w : FaultLog) : Prop :=
  ∃ f ∈ w.faults, f.thread = w.sys.kernel.queueHead .pagefault ∧
    (w.sys.kernel.tcb f.thread).faultAddr = f.cr2 ∧ pcxGetFlags w.sys.kernel.paging 0 f.cr2 = 0

/-- The condition on the steps of a run: none is disturbed, a block holds the address of the fault
already when the fault strikes, and a report is fetched while the page is not mapped. -/
structure Lucky (w : FaultLog) (e : Event) : Prop where
  calm : w.Calm e
  addr : ∀ er cr2, e = .interrupt 14 er cr2 → (w.sys.kernel.tcb w.sys.active).faultAddr = cr2
  unmapped : ∀ info, e = .call (.faultGetPagefault info) → ∀ f ∈ w.faults,
    f.thread = w.sys.kernel.queueHead .pagefault → pcxGetFlags w.sys.kernel.paging 0 f.cr2 = 0

/-- The active thread has no unfetched fault. -/
def Away (w : FaultLog) (_ : Event) : Prop := ∀ f ∈ w.faults, f.thread ≠ w.sys.active

instance (w : FaultLog) (e : Event) : Decidable (w.Away e) := by unfold Away; infer_instance

/-- The log agrees with the queue and the blocks in it. -/
structure Logged (P : Platform) (R : PageFault → Word → Prop) (w : FaultLog) : Prop where
  sound : SysSound P w.sys
  pending : Pending P w.sys.kernel .pagefault (w.faults.map PageFault.thread)
  ids : ∀ f ∈ w.faults, (w.sys.kernel.tcb f.thread).id = f.id
  addr : ∀ f ∈ w.faults, R f (w.sys.kernel.tcb f.thread).faultAddr

variable {P : Platform} {R : PageFault → Word → Prop} {w w' : FaultLog} {e : Event}

namespace Logged

/-- No two unfetched faults have a thread id in common. -/
theorem without_head (h : Logged P R w) {f : PageFault} {l : List PageFault}
    (hl : w.faults = f :: l) : w.without f.id = l := by
  have hnd : (w.faults.map PageFault.thread).Nodup := h.pending.chain.nodup
  have hid := h.ids
  have hblock := h.pending.block
  obtain ⟨run, free, hc⟩ := h.sound.sound
  rw [without, hl]
  rw [hl] at hnd hid hblock
  rw [List.filter_cons_of_neg (by simp), List.filter_eq_self]
  intro g hg
  rw [decide_eq_true_eq]
  intro he
  have hfg : f.thread = g.thread := by
    refine hc.id_inj (hblock _ (by simp)) (hblock _ ?_) ?_
    · exact List.mem_map_of_mem (List.mem_cons_of_mem _ hg)
    · rw [hid f (by simp), hid g (List.mem_cons_of_mem _ hg), he]
  rw [List.map_cons, List.nodup_cons] at hnd
  exact hnd.1 (hfg ▸ List.mem_map_of_mem hg)

/-- The first fault of the log is the one at the head of the queue. -/
theorem head (h : Logged P R w) (h0 : w.sys.kernel.queueHead .pagefault ≠ 0) :
    ∃ f l, w.faults = f :: l ∧ f.thread = w.sys.kernel.queueHead .pagefault := by
  obtain ⟨l, hl, -⟩ := h.pending.chain.exists_cons h0
  cases hf : w.faults with
  | nil =>
    rw [hf] at hl
    cases hl
  | cons f l' =>
    rw [hf, List.map_cons] at hl
    exact ⟨f, l', rfl, (List.cons.inj hl).1⟩

/-- A fetch takes the first fault off the log and off the queue. -/
theorem fetched (h : Logged P R w) {s' : Sys} (hs : SysSound P s')
    (hk : s'.kernel = (getQueued w.sys.kernel .pagefault).2) :
    Logged P R ⟨s', if w.sys.kernel.queueHead .pagefault = 0 then w.faults
      else w.without (w.sys.kernel.tcb (w.sys.kernel.queueHead .pagefault)).id⟩ := by
  have hp := h.pending.fetch.1
  rw [← hk] at hp
  have htcb : s'.kernel.tcb = w.sys.kernel.tcb := by
    rw [hk, getQueued_tcb]
  have htail : (if w.sys.kernel.queueHead .pagefault = 0 then w.faults
      else w.without (w.sys.kernel.tcb (w.sys.kernel.queueHead .pagefault)).id) =
        w.faults.tail := by
    split_ifs with h0
    · have hnil := h.pending.chain
      rw [h0] at hnil
      rw [List.map_eq_nil_iff.mp hnil.eq_nil]
      rfl
    · obtain ⟨f, l, hf, hhead⟩ := h.head h0
      rw [← hhead, h.ids f (hf ▸ List.mem_cons_self ..), h.without_head hf, hf]
      rfl
  rw [htail]
  refine ⟨hs, ?_, fun f hf => ?_, fun f hf => ?_⟩
  · rw [List.map_tail]
    exact hp
  · rw [htcb]
    exact h.ids f (List.mem_of_mem_tail hf)
  · rw [htcb]
    exact h.addr f (List.mem_of_mem_tail hf)

theorem nil (h : Logged P R w) (h0 : w.sys.kernel.queueHead .pagefault = 0) : w.faults = [] := by
  have hnil := h.pending.chain
  rw [h0] at hnil
  exact List.map_eq_nil_iff.mp hnil.eq_nil

/-- Any other calm event leaves the log as it is. -/
theorem spared (h : Logged P R w) (hc : w.Calm e) {s' : Sys} (hst : w.sys.step P e = some s')
    (hrep : ¬ e.Reports .pagefault) (hfetch : ¬ e.Fetches .pagefault) :
    Logged P R ⟨s', w.faults⟩ := by
  obtain ⟨hp, hdata⟩ := h.pending.step h.sound hc.undisturbed hst hrep hfetch
  have hsame : ∀ f ∈ w.faults, reportData (s'.kernel.tcb f.thread) =
      reportData (w.sys.kernel.tcb f.thread) := fun f hf => hdata _ (List.mem_map_of_mem hf)
  refine ⟨(h.sound.step hst).1, hp, fun f hf => ?_, fun f hf => ?_⟩
  · exact (reportData_eq.mp (hsame f hf)).1.trans (h.ids f hf)
  · change R f (s'.kernel.tcb f.thread).faultAddr
    rw [(reportData_eq.mp (hsame f hf)).2]
    exact h.addr f hf

/-- A page fault is logged and queued. -/
theorem faulted (h : Logged P R w) {er cr2 : Word} (hc : w.Calm (.interrupt 14 er cr2)) {s' : Sys}
    (hst : w.sys.step P (.interrupt 14 er cr2) = some s')
    (hR : R ⟨w.sys.active, (w.sys.kernel.tcb w.sys.active).id, cr2⟩
      (w.sys.kernel.tcb w.sys.active).faultAddr) :
    Logged P R ⟨s', ⟨w.sys.active, (w.sys.kernel.tcb w.sys.active).id, cr2⟩ :: w.faults⟩ := by
  have hq : faultQueue 14 = some .pagefault := rfl
  have hact : (w.sys.kernel.Live w.sys.active ∨ w.sys.active = P.idleTcb) ∧
      w.sys.kernel.state w.sys.active ≠ tcbStateQueued := by
    obtain ⟨run, free, hco⟩ := h.sound.sound
    exact hco.active.resolve_left h.sound.active
  have hnew : w.sys.active ∉ w.faults.map PageFault.thread := by
    intro ht
    have hnone := (hc.undisturbed.trap (h.pending.mem_iff.mp ht) _ _ _ rfl).2
    rw [hq] at hnone
    cases hnone
  have hp := h.pending.fault h.sound hst hq hnew ⟨hact.2, hc.rest _ _ rfl⟩
  have hsame : ∀ f ∈ w.faults, reportData (s'.kernel.tcb f.thread) =
      reportData (w.sys.kernel.tcb f.thread) := fun f hf =>
    interrupt_data h.sound hst (h.pending.block _ (List.mem_map_of_mem hf))
  have hself := interrupt_data h.sound hst hact.1
  refine ⟨(h.sound.step hst).1, hp, fun f hf => ?_, fun f hf => ?_⟩
  · rcases List.mem_cons.mp hf with rfl | hf
    · exact (reportData_eq.mp hself).1
    · exact (reportData_eq.mp (hsame f hf)).1.trans (h.ids f hf)
  · change R f (s'.kernel.tcb f.thread).faultAddr
    rcases List.mem_cons.mp hf with rfl | hf
    · rw [(reportData_eq.mp hself).2]
      exact hR
    · rw [(reportData_eq.mp (hsame f hf)).2]
      exact h.addr f hf

/-- The log keeps agreeing with the queue. -/
theorem step (h : Logged P R w) (hc : w.Calm e)
    (hR : ∀ er cr2, e = .interrupt 14 er cr2 →
      R ⟨w.sys.active, (w.sys.kernel.tcb w.sys.active).id, cr2⟩
        (w.sys.kernel.tcb w.sys.active).faultAddr)
    (hs : w.step P e = some w') : Logged P R w' := by
  obtain ⟨s', hst, rfl⟩ := Option.map_eq_some_iff.mp hs
  have hsound := (h.sound.step hst).1
  cases e with
  | interrupt v er cr2 =>
    by_cases h14 : v = 14
    · subst h14
      exact h.faulted hc hst (hR er cr2 rfl)
    · have hq : faultQueue v ≠ some .pagefault := by
        rw [faultQueue, if_neg h14]
        split_ifs <;> simp
      rw [next, if_neg h14]
      exact h.spared hc hst hq id
  | call c =>
    obtain ⟨-, -, r, hb⟩ := h.sound.step_call hst
    cases c with
    | threadGet q =>
      cases q with
      | pagefault =>
        have hk : s'.kernel = (getQueued w.sys.kernel .pagefault).2 := by
          rw [← apilogicThreadGet_kernel]
          exact (congrArg Prod.snd (Option.some.inj hb)).symm
        have hf := h.fetched hsound hk
        split_ifs at hf with h0
        · have hnext : w.next (.call (.threadGet .pagefault)) = w.faults := by
            simp [next, without, h.nil h0]
          rw [hnext]
          exact hf
        · have hnext : w.next (.call (.threadGet .pagefault)) = w.without
              (w.sys.kernel.tcb (w.sys.kernel.queueHead .pagefault)).id := by
            rw [next, apilogicThreadGetPagefault, apilogicThreadGet_fst, if_neg h0]
          rw [hnext]
          exact hf
      | miscfault => exact h.spared hc hst (by rintro ⟨hx, -⟩; cases hx) (by rintro ⟨⟩)
      | zombie => exact h.spared hc hst (by rintro ⟨hx, -⟩; cases hx) (by rintro ⟨⟩)
    | faultGetPagefault info =>
      by_cases hi : info = 0
      · have hnext : w.next (.call (.faultGetPagefault info)) = w.faults := by
          simp [next, apilogicFaultGetPagefault_fst, hi]
        rw [hnext]
        exact h.spared hc hst (by rintro ⟨hx, -⟩; cases hx) fun hx => hx.1 hi
      · have hk : s'.kernel = (getQueued w.sys.kernel .pagefault).2 := by
          have hb' := apilogicFaultGetPagefault_kernel w.sys.kernel info
          rw [if_neg hi] at hb'
          rw [← hb']
          exact (congrArg Prod.snd (Option.some.inj hb)).symm
        have hf := h.fetched hsound hk
        have hnext : w.next (.call (.faultGetPagefault info)) =
            if w.sys.kernel.queueHead .pagefault = 0 then w.faults
            else w.without (w.sys.kernel.tcb (w.sys.kernel.queueHead .pagefault)).id := by
          rw [next, apilogicFaultGetPagefault_fst]
          split_ifs with h1 h2 h2
          · rfl
          · exact absurd (h1.resolve_left hi) h2
          · exact absurd (Or.inr h2) h1
          · rfl
        rw [hnext]
        exact hf
    | threadExit => exact h.spared hc hst (by rintro ⟨-, hx⟩; cases hx) id
    | faultGetMiscfault info =>
      exact h.spared hc hst (by rintro ⟨hx, -⟩; cases hx) (by rintro ⟨-, hx⟩; cases hx)
    | faultGetZombie info =>
      exact h.spared hc hst (by rintro ⟨hx, -⟩; cases hx) (by rintro ⟨-, hx⟩; cases hx)
    | _ => exact h.spared hc hst (by rintro ⟨hx, -⟩; cases hx) id
  | _ => exact h.spared hc hst id id

theorem run {b : Boot P} {ok : FaultLog → Event → Prop}
    (hok : ∀ w e, ok w e → w.Calm e ∧ ∀ er cr2, e = .interrupt 14 er cr2 →
      R ⟨w.sys.active, (w.sys.kernel.tcb w.sys.active).id, cr2⟩
        (w.sys.kernel.tcb w.sys.active).faultAddr)
    (hr : Run (FaultLog.step P) ok ⟨b.sys, []⟩ w) : Logged P R w := by
  refine hr.invariant (I := Logged P R) ?_
    fun a e c ha hg hs => ha.step (hok a e hg).1 (hok a e hg).2 hs
  exact ⟨b.sys_sound, .nil (b.init_booted.heads _), by simp, by simp⟩

/-- A thread id in the log names one fault. -/
theorem unique (h : Logged P R w) {f g : PageFault} {l : List PageFault} (hl : w.faults = f :: l)
    (hg : g ∈ w.faults) (he : g.id = f.id) : g = f := by
  rw [hl] at hg
  refine (List.mem_cons.mp hg).resolve_right fun hg => ?_
  rw [← h.without_head hl, without, List.mem_filter] at hg
  exact of_decide_eq_true hg.2 he

/-- What a fetch returns tells of the first fault of the log. -/
theorem fetch (h : Logged P R w) {info : Ptr} {i : PagefaultInfo}
    (hi : (apilogicFaultGetPagefault w.sys.kernel info).1 = some i) :
    ∃ f l, w.faults = f :: l ∧ f.thread = w.sys.kernel.queueHead .pagefault ∧ i.thread = f.id ∧
      i = pagefaultInfo w.sys.kernel f.thread := by
  rw [apilogicFaultGetPagefault_fst] at hi
  split_ifs at hi with h0
  obtain ⟨f, l, hf, hhead⟩ := h.head fun hc => h0 (Or.inr hc)
  rw [← hhead] at hi
  obtain rfl := Option.some.inj hi
  exact ⟨f, l, hf, hhead, h.ids f (hf ▸ List.mem_cons_self ..), rfl⟩

theorem faithful_iff (h : Logged P R w) {info : Ptr} {i : PagefaultInfo}
    (hi : (apilogicFaultGetPagefault w.sys.kernel info).1 = some i) : w.Faithful i ↔ w.Told := by
  obtain ⟨f, l, hf, hhead, hid, rfl⟩ := h.fetch hi
  have hmem : f ∈ w.faults := hf ▸ List.mem_cons_self ..
  have hpage : ∀ v, apilogicPageGet w.sys.kernel.paging v =
      ⟨pcxGetTrans w.sys.kernel.paging 0 v, pcxGetFlags w.sys.kernel.paging 0 v⟩ ↔
        pcxGetFlags w.sys.kernel.paging 0 v = 0 := by
    intro v
    rw [← apilogicPageGet_flags_iff]
    exact ⟨fun he => congrArg PageContent.flags he, fun he => by rw [← he]; rfl⟩
  constructor
  · rintro ⟨g, hg, h1, h2, h3⟩
    obtain rfl := h.unique hf hg (h1.symm.trans hid)
    refine ⟨g, hg, hhead, h2, ?_⟩
    rw [← h2]
    exact (hpage _).mp h3
  · rintro ⟨g, hg, h1, h2, h3⟩
    have hgf : g = f := by
      refine h.unique hf hg ?_
      rw [← h.ids g hg, ← h.ids f hmem, h1, hhead]
    subst hgf
    refine ⟨g, hg, hid, h2, (hpage _).mpr ?_⟩
    change pcxGetFlags _ 0 (w.sys.kernel.tcb g.thread).faultAddr = 0
    rw [h2]
    exact h3

end Logged
/-- While nobody is disturbed, a report is faithful exactly if the block of its fault held CR2
beforehand and the page is not mapped; where that is so at every fault and every fetch of a run,
all its reports are. -/
theorem pagefault_report_faithful (b : Boot P) :
    (∀ w, Run (FaultLog.step P) Calm ⟨b.sys, []⟩ w → ∀ info i,
      (apilogicFaultGetPagefault w.sys.kernel info).1 = some i → (w.Faithful i ↔ w.Told)) ∧
    ∀ w, Run (FaultLog.step P) Lucky ⟨b.sys, []⟩ w → ∀ info i,
      w.Lucky (.call (.faultGetPagefault info)) →
      (apilogicFaultGetPagefault w.sys.kernel info).1 = some i → w.Faithful i := by
  refine ⟨fun w hr info i hi => ?_, fun w hr info i hl hi => ?_⟩
  · have h : Logged P (fun _ _ => True) w := .run (fun _ _ hc => ⟨hc, fun _ _ _ => trivial⟩) hr
    exact h.faithful_iff hi
  · have h : Logged P (fun f a => a = f.cr2) w := .run (fun _ _ hc => ⟨hc.calm, hc.addr⟩) hr
    obtain ⟨f, l, hf, hhead, -⟩ := h.fetch hi
    have hmem : f ∈ w.faults := hf ▸ List.mem_cons_self ..
    exact (h.faithful_iff hi).mpr
      ⟨f, hmem, hhead, h.addr f hmem, hl.unmapped info rfl f hmem hhead⟩

/-- A test for lucky steps before the first fault of a run. -/
def lucky (w : FaultLog) : Event → Bool
  | .interrupt _ _ cr2 => w.sys.kernel.queueHead .pagefault = 0 ∧
      w.sys.kernel.state w.sys.active = tcbStateRunning ∧
      (w.sys.kernel.tcb w.sys.active).faultAddr = cr2
  | .call (.faultGetPagefault _) => false
  | _ => w.sys.kernel.queueHead .pagefault = 0

theorem undisturbed_of_empty {s : Sys} (h : s.kernel.queueHead .pagefault = 0) (e : Event) :
    Undisturbed .pagefault s e := by
  have hqueue : ∀ t, ¬ s.kernel.InQueue .pagefault t := by
    intro t ht
    rw [Kernel.InQueue, h] at ht
    exact ht.not_null
  exact ⟨fun h => absurd h (hqueue _), fun h => absurd h (hqueue _), fun h => absurd h (hqueue _),
    fun _ _ h => absurd h (hqueue _), fun _ _ h => absurd h (hqueue _)⟩

theorem lucky_of_test {w : FaultLog} {e : Event} (h : w.lucky e = true) : w.Lucky e := by
  by_cases hint : ∃ v er cr2, e = .interrupt v er cr2
  · obtain ⟨v, er, cr2, rfl⟩ := hint
    obtain ⟨hempty, hrun, haddr⟩ := of_decide_eq_true h
    refine ⟨⟨undisturbed_of_empty hempty _, fun _ _ _ => ?_⟩, fun er' cr2' he => ?_, nofun⟩
    · rw [hrun]
      decide
    · obtain ⟨-, -, rfl⟩ := Event.interrupt.inj he
      exact haddr
  · have hempty : w.sys.kernel.queueHead .pagefault = 0 := by
      unfold lucky at h
      split at h
      · exact absurd ⟨_, _, _, rfl⟩ hint
      · exact absurd h Bool.false_ne_true
      · exact of_decide_eq_true h
    refine ⟨⟨undisturbed_of_empty hempty e, fun er cr2 he => absurd ⟨_, _, _, he⟩ hint⟩,
      fun er cr2 he => absurd ⟨_, _, _, he⟩ hint, ?_⟩
    rintro info rfl
    exact absurd h Bool.false_ne_true

/-- Thread 2 faults at address 0, which its block holds from the start, and the report is faithful. -/
theorem pagefault_report_faithful_zero : ∃ w i,
    Run (FaultLog.step lowPlatform) Lucky ⟨lowBoot.sys, []⟩ w ∧
      w.Lucky (.call (.faultGetPagefault 1)) ∧
      (apilogicFaultGetPagefault w.sys.kernel 1).1 = some i ∧ i.thread = 2 ∧ w.Told ∧ w.Faithful i := by
  obtain ⟨w, hr, hw⟩ := Run.exists_of_guarded (FaultLog.step lowPlatform)
    (fun w e => w.lucky e = true) ⟨lowBoot.sys, []⟩
    [.call .threadCreate, .yield, .ret, .call (.threadResume 2), .yield, .interrupt 14 0 0]
    (fun w => (apilogicFaultGetPagefault w.sys.kernel 1).1.map PagefaultInfo.thread = some 2 ∧
      w.sys.kernel.queueHead .pagefault ≠ w.sys.active ∧
      w.sys.kernel.next (w.sys.kernel.queueHead .pagefault) = 0 ∧
      ∀ f ∈ w.faults, pcxGetFlags w.sys.kernel.paging 0 f.cr2 = 0)
    (by decide +kernel)
  obtain ⟨hfetch, hhead, hnext, hflags⟩ := of_decide_eq_true hw
  obtain ⟨i, hi, h2⟩ := Option.map_eq_some_iff.mp hfetch
  have hrun := hr.mono fun _ _ => lucky_of_test
  have hactive : ¬ w.sys.kernel.InQueue .pagefault w.sys.active := by
    intro hq
    have halone := hq.of_closed (S := fun t => t = w.sys.kernel.queueHead .pagefault) (fun _ => rfl)
      fun t ht hne => absurd (ht ▸ hnext) hne
    exact hhead halone.symm
  have hlucky : w.Lucky (.call (.faultGetPagefault 1)) :=
    ⟨⟨⟨fun h => absurd h hactive, fun h => absurd h hactive, fun h => absurd h hactive, nofun, nofun⟩,
      nofun⟩, nofun, fun _ _ f hf _ => hflags f hf⟩
  have hfaithful := (pagefault_report_faithful lowBoot).2 w hrun 1 i hlucky hi
  have hcalm := hrun.mono fun _ _ (h : Lucky _ _) => h.calm
  exact ⟨w, i, hrun, hlucky, hi, h2,
    ((pagefault_report_faithful lowBoot).1 w hcalm 1 i hi).mp hfaithful, hfaithful⟩

/-- Thread 2 faults at 0x1234, and the report tells of address 0. -/
theorem pagefault_report_stale : ¬ ∀ (P : Platform) (b : Boot P) (w : FaultLog),
    Run (FaultLog.step P) Away ⟨b.sys, []⟩ w → ∀ info i,
      (apilogicFaultGetPagefault w.sys.kernel info).1 = some i → w.Faithful i := by
  intro h
  obtain ⟨w, hr, hw⟩ := Run.exists_of_guarded (FaultLog.step lowPlatform) Away ⟨lowBoot.sys, []⟩
    [.call .threadCreate, .yield, .ret, .call (.threadResume 2), .yield,
      .interrupt 14 0 0x1234]
    (fun w => w.faults.map PageFault.cr2 = [0x1234] ∧
      (apilogicFaultGetPagefault w.sys.kernel 1).1.map PagefaultInfo.vaddr = some 0)
    (by decide +kernel)
  obtain ⟨hlog, hv⟩ := of_decide_eq_true hw
  obtain ⟨i, hi, hv⟩ := Option.map_eq_some_iff.mp hv
  obtain ⟨f, hf, -, haddr, -⟩ := h lowPlatform lowBoot w hr 1 i hi
  have hcr2 : f.cr2 ∈ w.faults.map PageFault.cr2 := List.mem_map_of_mem hf
  rw [hlog, List.mem_singleton, ← haddr, hv] at hcr2
  exact absurd hcr2 (by decide)

end FaultLog
end Pinion64
