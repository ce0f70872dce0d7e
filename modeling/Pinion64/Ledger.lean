import Pinion64.Running
import Pinion64.Lib.Family

/-! The reports that are owed: every fault and every exit adds one, every fetch delivers one, and
the three report queues hold exactly those that have not been delivered. -/
namespace Pinion64
open Intrusive Transition

instance decCallFetches (q : TcbQueue) (c : Call) : Decidable (c.Fetches q) := by
  cases c <;> unfold Call.Fetches <;> infer_instance

instance decEventFetches (q : TcbQueue) : (e : Event) → Decidable (e.Fetches q)
  | .call c => decCallFetches q c
  | .interrupt .. => instDecidableFalse
  | .yield => instDecidableFalse
  | .run _ => instDecidableFalse
  | .ret => instDecidableFalse

/-- The running system with the threads whose reports are owed, the latest of each kind first. -/
structure Ledger where
  sys : Sys
  owed : TcbQueue → List Ptr

/-- The queue that an event reports the active thread in. -/
def Event.kind : Event → Option TcbQueue
  | .interrupt v _ _ => faultQueue v
  | .call .threadExit => some .zombie
  | _ => none

/-- The reports that are owed after an event. -/
def Ledger.next (r : Ledger) (e : Event) (q : TcbQueue) : List Ptr :=
  if e.kind = some q then r.sys.active :: r.owed q
  else if e.Fetches q then (r.owed q).tail
  else r.owed q

def Ledger.step (P : Platform) (r : Ledger) (e : Event) : Option Ledger :=
  (r.sys.step P e).map fun s => ⟨s, r.next e⟩

/-- The three queues are disjoint lists, apart from the run queue, that hold the threads whose
reports are owed; the next report that a queue delivers is the latest one. -/
structure Ledger.Exact (P : Platform) (r : Ledger) : Prop where
  lists : Family r.sys.kernel.next 0 r.sys.kernel.queueHead r.owed
  thread : ∀ q, ∀ t ∈ r.owed q, r.sys.kernel.Live t ∨ t = P.idleTcb
  run : ∃ run, Chain r.sys.kernel.next 0 r.sys.kernel.scheduleHead run ∧
    ∀ q, (r.owed q).Disjoint run
  fetch : ∀ q, (getQueued r.sys.kernel q).1 = (r.owed q).headD 0

/-- The vector that an event fires. -/
def Sys.Fires (s : Sys) (v : BitVec 16) : Event → Prop
  | .call c => c.Fires s.kernel v
  | .interrupt iv _ _ => ∃ q, faultQueue iv = some q ∧ v = q.vector
  | _ => False

/-- A thread whose report waits stays where it is: no timer tick and no fault strikes it, nobody
resumes it out of its suspension or reaps it, and no vector wakes it. A fault does not wake the
thread that it strikes either. -/
structure Sys.Orderly (s : Sys) (e : Event) : Prop where
  trap : ∀ v er cr2, e = .interrupt v er cr2 → v = 32 ∨ (faultQueue v).isSome →
    ¬ s.kernel.Reported s.active
  resume : ∀ th, e = .call (.threadResume th) → s.kernel.Reported (target s.kernel th) →
    s.kernel.state (target s.kernel th) ≠ tcbStateSuspended
  reap : ∀ th, e = .call (.threadReap th) → s.kernel.Reported (tcbGet s.kernel th) →
    s.kernel.state (tcbGet s.kernel th) ≠ tcbStateSuspended
  wake : ∀ v t j, s.Fires v e → Fired s.kernel v t j → s.kernel.state t = tcbStateWaiting →
    ¬ s.kernel.Reported t ∧ t ≠ s.active

variable {P : Platform} {k k' : Kernel} {s s' : Sys} {r r' : Ledger} {e : Event} {f : Effect}
  {q : TcbQueue} {l : List Ptr} {t : Ptr}

theorem Sys.May.wake {v : BitVec 16} {j : Fin 4} (h : s.May e (.wake v t j)) :
    s.Fires v e ∧ Fired s.kernel v t j ∧ s.kernel.state t = tcbStateWaiting := by
  cases e with
  | call c => exact h
  | interrupt iv er cr2 => exact h
  | yield =>
    obtain ⟨⟨q, hq, -⟩, -⟩ := h
    cases hq
  | run r => exact h.elim
  | ret => exact h.elim

/-- The idle block makes no yield trap. -/
theorem yield_active (h : SysSound P s) (hst : s.step P .yield = some s') :
    s.active ≠ P.idleTcb := by
  intro hi
  rcases Sys.yield_cases hst with ⟨-, hne, -⟩ | ⟨e, hp, -⟩
  · exact hne hi
  · rw [hi, h.idle] at hp
    cases hp

/-- An interrupt that does not schedule comes back to where it struck. -/
theorem enter_other {v : BitVec 32} {er : Word} (h32 : v ≠ 32) (h100 : v ≠ 0x100)
    (hq : faultQueue v = none) :
    (s.enter P v er).pos = s.pos ∧ ∀ p, (s.enter P v er).kernel.state p = s.kernel.state p := by
  have hiv : ((saveState s.kernel s.cpu v er).tcb s.kernel.activeTcb).ivect = v :=
    congrArg Tcb.ivect (Kernel.updTcb_self ..)
  have hfault : ∃ f, f ≠ .idle ∧ fault P (saveState s.kernel s.cpu v er) s.kernel.activeTcb =
      (saveState s.kernel s.cpu v er, f) := by
    unfold faultQueue at hq
    rw [fault, hiv]
    simp only [if_neg h32, if_neg h100]
    split_ifs at hq ⊢
    · exact ⟨.hang, by decide, rfl⟩
    · exact ⟨.resume, by decide, rfl⟩
  have hst := saveState_state s.kernel s.cpu v er
  have hactive : (saveState s.kernel s.cpu v er).activeTcb = s.kernel.activeTcb := rfl
  obtain ⟨f, hf, hfault⟩ := hfault
  simp only [Sys.enter, hactive, hfault]
  cases f with
  | idle => exact absurd rfl hf
  | resume => exact ⟨rfl, hst⟩
  | hang => exact ⟨rfl, hst⟩

theorem step_interrupt_other {v : BitVec 32} {er cr2 : Word}
    (hst : s.step P (.interrupt v er cr2) = some s') (hv : ¬ (Event.interrupt v er cr2).Schedules) :
    s'.pos = s.pos ∧ ∀ p, s'.kernel.state p = s.kernel.state p := by
  rw [Event.Schedules, not_or, Option.not_isSome_iff_eq_none] at hv
  obtain ⟨hin, x, er', rfl⟩ := Sys.interrupt_cases hst
  exact enter_other (s := { s with cr2 := x }) hv.1 hin.ne_yield hv.2

/-- An exit leaves its caller before the trap. -/
theorem exit_pos (h : SysSound P s) (hst : s.step P (.call .threadExit) = some s') :
    s'.pos s.active = .tail .threadExit := by
  have hact : (apilogicThreadExit s.kernel).activeTcb = s.active :=
    body_active (h.step_call hst).1.threadExit h.sound
  obtain ⟨-, rfl, -⟩ := h.step_call hst
  change Function.update s.pos (apilogicThreadExit s.kernel).activeTcb _ s.active = _
  rw [hact]
  exact Function.update_self ..

/-- Saving and unloading the active block changes neither routes nor taps. -/
theorem Unloads.fired {a : Ptr} (hs : Sound P k) (h : Effects P (Unloads a) k k')
    (v : BitVec 16) (t : Ptr) (j : Fin 4) : Fired k' v t j ↔ Fired k v t j := by
  have hsame := h.keep (I := fun b => b.vectorPageTable = k.vectorPageTable ∧
    ∀ p, (b.tcb p).tap = (k.tcb p).tap) ⟨rfl, fun _ => rfl⟩ hs ?_
  · exact fired_congr hsame.1 (hsame.2 t) v j
  intro b f c hb hsb he hf hc
  have hsp := Effect.spec hsb he hc
  cases f with
  | regs => exact ⟨hsp.pages.trans hb.1, fun p => (hsp.tap p).trans (hb.2 p)⟩
  | unload => exact ⟨hsp.pages.trans hb.1, fun p => (hsp.tap p).trans (hb.2 p)⟩
  | _ => exact hf.elim

section Schedule

/-- scheduler_schedule leaves a report queue alone unless it holds the active block, and loads no
block of it but the idle one. -/
theorem Listed.schedule (h : Listed P k q l) (hs : Sound P k) (ha : k.activeTcb ∉ l) :
    Listed P (schedulerSchedule P k).1 q l ∧ ((schedulerSchedule P k).1.activeTcb ∈ l →
      (schedulerSchedule P k).1.activeTcb = P.idleTcb) := by
  obtain ⟨k₁, k₂, g, hsch⟩ := hs.schedule
  have hen₁ : Enabled P k .unload := trivial
  have hs₁ : Sound P k₁ := hs.effects (A := fun _ => True) (.single hen₁ trivial hsch.unload)
  have h₁ : Listed P k₁ q l := h.effect hs hen₁ hsch.unload trivial
  have h₂ : Listed P k₂ q l ∧ Sound P k₂ := by
    by_cases h0 : k.activeTcb = 0
    · rw [hsch.idle h0]
      exact ⟨h₁, hs₁⟩
    · obtain ⟨hen, hk₂⟩ := hsch.requeue h0
      exact ⟨h₁.effect hs₁ hen hk₂ ha,
        hs₁.effects (A := fun _ => True) (.single hen trivial hk₂)⟩
  obtain ⟨h₂, hs₂⟩ := h₂
  have hact := (Effect.spec hs₂ hsch.enabled hsch.load).active
  rcases hsch.choice with ⟨rfl, -⟩ | ⟨rfl, -⟩
  · refine ⟨h₂.effect hs₂ hsch.enabled hsch.load trivial, fun hmem => ?_⟩
    rw [hact] at hmem
    obtain ⟨run, free, hc⟩ := hs₂
    obtain ⟨m, hrun, -⟩ := hc.fifo.1.exists_cons hsch.enabled.2.1
    have hq := ((hc.queued k₂.scheduleHead).mp (hrun ▸ List.mem_cons_self ..)).2
    exact absurd hq (h₂.idle _ hmem)
  · exact ⟨h₂.effect hs₂ hsch.enabled hsch.load trivial, fun _ => hact⟩

end Schedule

section Kept

/-- The queues hold the owed reports; a thread whose report waits is on the core only between its
exit and the trap behind it. -/
structure Ledger.Kept (P : Platform) (r : Ledger) : Prop where
  sound : SysSound P r.sys
  listed : ∀ q, Listed P r.sys.kernel q (r.owed q)
  disjoint : ∀ q q', q ≠ q' → (r.owed q).Disjoint (r.owed q')
  leaving : ∀ q, r.sys.active ∈ r.owed q → r.sys.active = P.idleTcb ∨
    r.sys.pos r.sys.active = .tail .threadExit ∧
      r.sys.kernel.state r.sys.active = tcbStateSuspended

namespace Ledger.Kept

theorem reported_iff (h : r.Kept P) : r.sys.kernel.Reported t ↔ ∃ q, t ∈ r.owed q :=
  exists_congr fun q => (h.listed q).mem_iff.symm

/-- The active thread makes no call while a report of it waits. -/
theorem caller_not_owed (h : r.Kept P) {c : Call}
    (hst : r.sys.step P (.call c) = some s') : ∀ q, r.sys.active ∉ r.owed q := by
  intro q hq
  obtain ⟨hcall, -⟩ := h.sound.step_call hst
  rcases h.leaving q hq with hi | ⟨-, hsusp⟩
  · obtain ⟨run, free, hc⟩ := h.sound.sound
    exact hc.live_ne_idle hcall.live hi
  · exact absurd (hcall.running.symm.trans hsusp) (by decide)

/-- A trap puts no thread whose report waits back on the run queue. -/
theorem not_requeued (h : r.Kept P) (ho : r.sys.Orderly e) {v : BitVec 32} {rdi : Word}
    (hst : r.sys.step P e = some s')
    (he : (∃ er cr2, e = .interrupt v er cr2) ∨ e = .yield ∧ v = 0x100 ∧ rdi = r.sys.yieldCode)
    (hr : Requeues r.sys.kernel v rdi) : ∀ q, r.sys.active ∉ r.owed q := by
  intro q hq
  rcases he with ⟨er, cr2, rfl⟩ | ⟨rfl, rfl, rfl⟩
  · rcases hr with rfl | ⟨rfl, -⟩
    · exact ho.trap 32 er cr2 rfl (Or.inl rfl) (h.reported_iff.mpr ⟨q, hq⟩)
    · exact (step_interrupt hst).1.ne_yield rfl
  · rcases h.leaving q hq with hi | ⟨hpos, hsusp⟩
    · exact yield_active h.sound hst hi
    · rcases hr with hr | ⟨-, hr | hr⟩
      · exact absurd hr (by decide)
      · exact hr (by rw [Sys.yieldCode, hpos]; rfl)
      · exact absurd (hsusp.symm.trans hr) (by decide)

/-- An orderly event that neither reports in a queue nor fetches from it passes it by. -/
theorem passes (h : r.Kept P) (ho : r.sys.Orderly e) (hst : r.sys.step P e = some s')
    (hrep : e.kind ≠ some q) (hfetch : ¬ e.Fetches q)
    (hreap : ∀ th, e ≠ .call (.threadReap th)) (hf : r.sys.May e f) :
    f.Passes q (r.owed q) := by
  have howed : ∀ {t}, t ∈ r.owed q → r.sys.kernel.Reported t := fun ht =>
    h.reported_iff.mpr ⟨q, ht⟩
  cases f with
  | ready t =>
    intro ht
    cases e with
    | call c =>
      obtain ⟨th, rfl, rfl, hsusp⟩ := hf
      exact ho.resume th rfl (howed ht) hsusp
    | interrupt v er cr2 =>
      obtain ⟨rfl, hr⟩ := hf
      exact h.not_requeued ho hst (Or.inl ⟨er, cr2, rfl⟩) hr q ht
    | yield =>
      obtain ⟨rfl, hr⟩ := hf
      exact h.not_requeued ho hst (Or.inr ⟨rfl, rfl, rfl⟩) hr q ht
    | run => exact hf
    | ret => exact hf
  | wake v t j =>
    obtain ⟨h1, h2, h3⟩ := hf.wake
    exact fun ht => (ho.wake v t j h1 h2 h3).1 (howed ht)
  | report q' t =>
    cases e with
    | call c =>
      obtain ⟨rfl, rfl, rfl⟩ := hf
      exact ⟨fun hc => hrep (congrArg some hc), h.caller_not_owed hst q⟩
    | interrupt v er cr2 =>
      obtain ⟨rfl, hq⟩ := hf
      refine ⟨fun hc => hrep (hc ▸ hq), fun ht => ?_⟩
      exact ho.trap v er cr2 rfl (Or.inr (by rw [hq]; rfl)) (howed ht)
    | yield =>
      obtain ⟨-, hq⟩ := hf
      cases hq
    | run => exact hf.elim
    | ret => exact hf.elim
  | fetch q' =>
    cases e with
    | call c =>
      rintro rfl
      exact hfetch hf
    | _ => exact hf.elim
  | reap t =>
    obtain ⟨th, rfl, -⟩ := hf.reap
    exact absurd rfl (hreap th)
  | _ => trivial

/-- So the queue stays as it is. -/
theorem spared (h : r.Kept P) (ho : r.sys.Orderly e) (hst : r.sys.step P e = some s')
    (hrep : e.kind ≠ some q) (hfetch : ¬ e.Fetches q) : Listed P s'.kernel q (r.owed q) := by
  by_cases hreap : ∃ th, e = .call (.threadReap th)
  · obtain ⟨th, rfl⟩ := hreap
    obtain ⟨hcall, hk⟩ := step_reap h.sound hst
    by_cases htrue : (apilogicThreadReap r.sys.kernel th).1 = true
    · obtain ⟨hen, happ⟩ := hcall.reap_eq htrue
      rw [← hk] at happ
      refine (h.listed q).effect h.sound.sound hen happ fun ht => ?_
      exact ho.reap th rfl (h.reported_iff.mpr ⟨q, ht⟩) hen.2.1
    · rw [hk, apilogicThreadReap_refused htrue]
      exact h.listed q
  · exact (h.listed q).effects h.sound.sound (h.sound.step hst).2 fun f hf =>
      h.passes ho hst hrep hfetch (fun th he => hreap ⟨th, he⟩) hf

/-- What an event hands to scheduler_schedule: the queues hold what is owed then, and the block
that is put back on the run queue is in none of them. -/
structure Prepared (P : Platform) (r : Ledger) (e : Event) (k : Kernel) : Prop where
  sound : Sound P k
  listed : ∀ q, Listed P k q (r.next e q)
  away : ∀ q, k.activeTcb ∉ r.next e q

theorem next_same (hk : e.kind ≠ some q) (hf : ¬ e.Fetches q) : r.next e q = r.owed q :=
  (if_neg hk).trans (if_neg hf)

/-- The block that a fault or a trap leaves active is none, or one that is owed no report. -/
theorem Prepared.of_active (hs : Sound P k) (hl : ∀ q, Listed P k q (r.next e q))
    (ha : k.activeTcb = 0 ∨ ∀ q, k.activeTcb ∉ r.next e q) : Prepared P r e k := by
  refine ⟨hs, hl, fun q hq => ?_⟩
  rcases ha with h0 | ha
  · exact Coherent.ne_zero ((hl q).block _ hq) h0
  · exact ha q hq

theorem prepared_timer (h : r.Kept P) {er cr2 : Word}
    (ho : r.sys.Orderly (.interrupt 32 er cr2))
    (hst : r.sys.step P (.interrupt 32 er cr2) = some s') :
    ∃ k, Prepared P r (.interrupt 32 er cr2) k ∧ s'.kernel = (schedulerSchedule P k).1 := by
  obtain ⟨-, er', hk⟩ := step_interrupt hst
  have hnext : ∀ q, r.next (.interrupt 32 er cr2) q = r.owed q := fun q =>
    next_same (by simp [Event.kind, faultQueue]) id
  have hen : Enabled P r.sys.kernel (.regs r.sys.active r.sys.cpu 32 0 er') := trivial
  have hs₁ := h.sound.sound.effects (A := fun _ => True) (.single hen trivial rfl)
  refine ⟨saveState r.sys.kernel r.sys.cpu 32 er', .of_active hs₁ (fun q => ?_)
    (Or.inr fun q hq => ?_), ?_⟩
  · rw [hnext]
    exact (h.listed q).effect h.sound.sound hen rfl trivial
  · rw [hnext] at hq
    exact ho.trap 32 er cr2 rfl (Or.inl rfl) (h.reported_iff.mpr ⟨q, hq⟩)
  · have hiv : ((saveState r.sys.kernel r.sys.cpu 32 er').tcb r.sys.active).ivect = 32 :=
      congrArg Tcb.ivect (Kernel.updTcb_self ..)
    rw [hk, fault, hiv, if_pos rfl]

theorem prepared_yield (h : r.Kept P) (ho : r.sys.Orderly .yield)
    (hst : r.sys.step P .yield = some s') :
    ∃ k, Prepared P r .yield k ∧ s'.kernel = (schedulerSchedule P k).1 := by
  obtain ⟨cpu, hrdi, hk⟩ := step_yield hst
  have hnext : ∀ q, r.next .yield q = r.owed q := fun q => next_same (by simp [Event.kind]) id
  have hen : Enabled P r.sys.kernel (.regs r.sys.active cpu 0x100 0 0) := trivial
  have hs₁ := h.sound.sound.effects (A := fun _ => True) (.single hen trivial rfl)
  have hl₁ : ∀ q, Listed P (saveState r.sys.kernel cpu 0x100 0) q (r.next .yield q) := fun q => by
    rw [hnext]
    exact (h.listed q).effect h.sound.sound hen rfl trivial
  have hsame : (saveState r.sys.kernel cpu 0x100 0).tcb r.sys.active =
      { r.sys.kernel.tcb r.sys.active with
        regs := cpu, ivect := 0x100, saved := 0, error := 0 } := Kernel.updTcb_self ..
  have h32 : ¬ (0x100 : BitVec 32) = 32 := by decide
  rw [fault, hsame] at hk
  simp only [if_neg h32, if_true] at hk
  split_ifs at hk with hy
  · refine ⟨_, .of_active (hs₁.effects (A := fun _ => True)
      (.single (e := .unload) trivial trivial rfl)) (fun q => ?_) (Or.inl ?_), hk⟩
    · exact (hl₁ q).effect hs₁ (f := .unload) trivial rfl trivial
    · exact ccbUnloadTcb_active _
  · refine ⟨_, .of_active hs₁ hl₁ (Or.inr fun q hq => ?_), hk⟩
    rw [hnext] at hq
    refine h.not_requeued ho hst (Or.inr ⟨rfl, rfl, rfl⟩) (Or.inr ⟨rfl, ?_⟩) q hq
    rw [← hrdi]
    exact (not_and_or.mp hy).imp_right not_not.mp

/-- A report that has been queued is not moved by the vector that fires for it. -/
theorem fire_listed {v : BitVec 16} (hs : Sound P k)
    (hl : ∀ q, Listed P k q (r.next e q)) (hf : Effects P (FireMay k v) k k')
    (hw : ∀ t j, Fired k v t j → k.state t = tcbStateWaiting → ∀ q, t ∉ r.next e q) :
    ∀ q, Listed P k' q (r.next e q) := by
  refine fun q => (hl q).effects hs hf fun f hm => ?_
  cases f with
  | flag => trivial
  | wake v t j => exact hm.1 ▸ hw t j (hm.1 ▸ hm.2.1) hm.2.2 q
  | unwait => trivial
  | _ => exact hm.elim

theorem prepared_fault (h : r.Kept P) {v : BitVec 32} {er cr2 : Word}
    (ho : r.sys.Orderly (.interrupt v er cr2))
    (hst : r.sys.step P (.interrupt v er cr2) = some s') (hv : (faultQueue v).isSome) :
    ∃ k, Prepared P r (.interrupt v er cr2) k ∧ s'.kernel = (schedulerSchedule P k).1 := by
  obtain ⟨q₀, hq⟩ := Option.isSome_iff_exists.mp hv
  obtain ⟨k₂, heff, h0, hstate, htable, hk⟩ := step_fault h.sound hst hq
  have hs₂ := h.sound.sound.effects heff
  have haway : ∀ q, r.sys.active ∉ r.owed q := fun q ha =>
    ho.trap v er cr2 rfl (Or.inr hv) (h.reported_iff.mpr ⟨q, ha⟩)
  have hl₂ : ∀ q, Listed P k₂ q (r.owed q) := by
    refine fun q => (h.listed q).effects h.sound.sound heff fun f hf => ?_
    cases f with
    | regs => trivial
    | unload => trivial
    | _ => exact hf.elim
  have hact : (k₂.Live r.sys.active ∨ r.sys.active = P.idleTcb) ∧
      k₂.state r.sys.active ≠ tcbStateQueued := by
    rw [Kernel.Live, htable, hstate]
    obtain ⟨run, free, hc⟩ := h.sound.sound
    exact hc.active.resolve_left h.sound.active
  obtain ⟨hs₃, ha₃, hfire⟩ := notify_effects (q := q₀) hs₂ h0 hact.1 hact.2
  have hnext : ∀ q, r.next (.interrupt v er cr2) q =
      if q₀ = q then r.sys.active :: r.owed q else r.owed q := by
    intro q
    change (if faultQueue v = some q then _ else _) = _
    rw [hq]
    simp only [Option.some.injEq]
    rfl
  have hl₃ : ∀ q, Listed P (enqueue k₂ q₀ r.sys.active) q (r.next (.interrupt v er cr2) q) := by
    intro q
    rw [hnext]
    split_ifs with hqq
    · subst hqq
      exact (hl₂ q₀).report hact.1 hact.2 (haway q₀)
    · exact (hl₂ q).effect hs₂ (f := .report q₀ r.sys.active) hact rfl ⟨hqq, haway q⟩
  have hwake : ∀ t j, Fired (enqueue k₂ q₀ r.sys.active) q₀.vector t j →
      (enqueue k₂ q₀ r.sys.active).state t = tcbStateWaiting →
      ∀ q, t ∉ r.next (.interrupt v er cr2) q := by
    intro t j hf hw q ht
    have hsp := Effect.spec hs₂ (e := .report q₀ r.sys.active) hact rfl
    have hf₀ := (Unloads.fired h.sound.sound heff q₀.vector t j).mp
      ((fired_congr hsp.pages (hsp.tap t) q₀.vector j).mp hf)
    have hw₀ : r.sys.kernel.state t = tcbStateWaiting := by
      rw [← hstate, ← hw, enqueue_eq]
      rfl
    obtain ⟨hrep, hne⟩ := ho.wake q₀.vector t j ⟨q₀, hq, rfl⟩ hf₀ hw₀
    rw [hnext] at ht
    split_ifs at ht
    · exact hrep (h.reported_iff.mpr ⟨q, (List.mem_cons.mp ht).resolve_left hne⟩)
    · exact hrep (h.reported_iff.mpr ⟨q, ht⟩)
  have hframe := (FireFrame.refl _).effects hs₃ hfire
  exact ⟨_, .of_active (hs₃.effects hfire) (fire_listed hs₃ hl₃ hfire hwake)
    (Or.inl (hframe.active.trans ha₃)), hk⟩

/-- An exit is owed a report and suspends its thread. -/
theorem exited (h : r.Kept P) (ho : r.sys.Orderly (.call .threadExit))
    (hst : r.sys.step P (.call .threadExit) = some s') :
    (∀ q, Listed P s'.kernel q (r.next (.call .threadExit) q)) ∧
      s'.kernel.state r.sys.active = tcbStateSuspended := by
  obtain ⟨hcall, -, rep, hb⟩ := h.sound.step_call hst
  have haway := h.caller_not_owed hst
  have hk : apilogicThreadExit r.sys.kernel = s'.kernel := congrArg Prod.snd (Option.some.inj hb)
  obtain ⟨k₁, k₂, he⟩ := hcall.exits
  have hfire := he.fire
  rw [hk] at hfire
  -- the thread is suspended
  have hs₁ := hcall.sound.effects (A := fun _ => True)
    (.single he.shift trivial (congrArg some he.suspended))
  have hsp₁ := Effect.spec hcall.sound he.shift (congrArg some he.suspended)
  have hl₁ : ∀ q, Listed P k₁ q (r.owed q) := fun q =>
    (h.listed q).effect hcall.sound he.shift (congrArg some he.suspended) trivial
  -- its report is queued
  have hs₂ := hs₁.effects (A := fun _ => True)
    (.single he.report trivial (congrArg some he.queued))
  have hsp₂ := Effect.spec hs₁ he.report (congrArg some he.queued)
  have hlive₂ : k₂.Live r.sys.active := by
    rw [Kernel.Live, hsp₂.table, hsp₁.table]
    exact hcall.live
  have hnext : ∀ q, r.next (.call .threadExit) q =
      if TcbQueue.zombie = q then r.sys.active :: r.owed q else r.owed q := by
    intro q
    change (if some TcbQueue.zombie = some q then _ else _) = _
    simp only [Option.some.injEq]
    rfl
  have hl₂ : ∀ q, Listed P k₂ q (r.next (.call .threadExit) q) := by
    intro q
    rw [hnext, ← he.queued]
    split_ifs with hq
    · subst hq
      exact (hl₁ _).report he.report.1 he.report.2 (haway _)
    · exact (hl₁ q).effect hs₁ (f := .report .zombie r.sys.active) he.report rfl ⟨hq, haway q⟩
  -- and the vector fires
  have hsusp : k₂.state r.sys.active = tcbStateSuspended := (he.state _).trans (if_pos rfl)
  have hwake : ∀ t j, Fired k₂ pinionInterruptZombie t j → k₂.state t = tcbStateWaiting →
      t ≠ r.sys.active ∧ ∀ q, t ∉ r.owed q := by
    intro t j hf hw
    have hne : t ≠ r.sys.active := by
      rintro rfl
      exact absurd (hsusp.symm.trans hw) (by decide)
    have hf₀ : Fired r.sys.kernel pinionInterruptZombie t j :=
      (fired_congr (hsp₂.pages.trans hsp₁.pages) ((hsp₂.tap t).trans (hsp₁.tap t)) _ j).mp hf
    have hw₀ := ((he.state t).trans (if_neg hne)).symm.trans hw
    have hrep := (ho.wake pinionInterruptZombie t j rfl hf₀ hw₀).1
    exact ⟨hne, fun q hq => hrep (h.reported_iff.mpr ⟨q, hq⟩)⟩
  refine ⟨fire_listed hs₂ hl₂ hfire fun t j hf hw q hq => ?_, ?_⟩
  · obtain ⟨hne, hnot⟩ := hwake t j hf hw
    rw [hnext] at hq
    split_ifs at hq
    · exact hnot q ((List.mem_cons.mp hq).resolve_left hne)
    · exact hnot q hq
  · have hkeep := hfire.keep (I := fun a => a.Live r.sys.active ∧
      a.state r.sys.active = tcbStateSuspended) ⟨hlive₂, hsusp⟩ hs₂ ?_
    · exact hkeep.2
    rintro a f b ⟨hl, hr⟩ hsa he hm hfb
    have hsp := Effect.spec hsa he hfb
    have hlive : b.Live r.sys.active := by
      cases f with
      | flag | wake | unwait => 
        have ht := hsp.table
        rwa [Kernel.Live, ht]
      | _ => exact hm.elim
    refine ⟨hlive, (hsp.state _ (Or.inl ⟨hlive, hl⟩)).trans ?_⟩
    cases f with
    | flag => exact hr
    | wake v t j =>
      refine (if_neg ?_).trans hr
      rintro rfl
      exact absurd (hsusp.symm.trans hm.2.2) (by decide)
    | unwait v t j =>
      refine (if_neg ?_).trans hr
      rintro rfl
      exact absurd (hsusp.symm.trans hm.2.2) (by decide)
    | _ => exact hm.elim

/-- The queues go on to hold what is owed. -/
theorem step_listed (h : r.Kept P) (ho : r.sys.Orderly e) (hst : r.sys.step P e = some s') :
    (∀ q, Listed P s'.kernel q (r.next e q)) ∧ (e.Schedules → ∀ q, s'.active ∈ r.next e q →
      s'.active = P.idleTcb) := by
  by_cases he : e.Schedules
  · have hprep : ∃ k, Prepared P r e k ∧ s'.kernel = (schedulerSchedule P k).1 := by
      cases e with
      | interrupt v er cr2 =>
        rcases he with rfl | hv
        · exact h.prepared_timer ho hst
        · exact h.prepared_fault ho hst hv
      | yield => exact h.prepared_yield ho hst
      | _ => exact he.elim
    obtain ⟨k, hk, hs'⟩ := hprep
    have hsch := fun q => (hk.listed q).schedule hk.sound (hk.away q)
    rw [Sys.active, hs']
    exact ⟨fun q => (hsch q).1, fun _ q => (hsch q).2⟩
  · refine ⟨?_, fun hc => absurd hc he⟩
    by_cases hexit : e = .call .threadExit
    · subst hexit
      exact (h.exited ho hst).1
    · have hkind : ∀ q, e.kind ≠ some q := by
        intro q hq
        cases e with
        | interrupt v er cr2 =>
          have hv : faultQueue v = some q := hq
          exact he (Or.inr (by rw [hv]; rfl))
        | call c =>
          cases c with
          | threadExit => exact hexit rfl
          | _ => cases hq
        | _ => cases hq
      intro q
      rw [Ledger.next, if_neg (hkind q)]
      split_ifs with hfetch
      · cases e with
        | call c =>
          rw [step_fetch h.sound hst hfetch]
          exact (h.listed q).fetch.1
        | _ => exact hfetch.elim
      · exact h.spared ho hst (hkind q) hfetch

/-- What is owed after an event: what was owed before, or the report of the active thread. -/
theorem mem_next {t : Ptr} (ht : t ∈ r.next e q) :
    t ∈ r.owed q ∨ e.kind = some q ∧ t = r.sys.active := by
  unfold Ledger.next at ht
  split_ifs at ht with hk hf
  · exact (List.mem_cons.mp ht).symm.imp id fun h => ⟨hk, h⟩
  · exact Or.inl (List.mem_of_mem_tail ht)
  · exact Or.inl ht

theorem step_leaving (h : r.Kept P) (ho : r.sys.Orderly e) (hst : r.sys.step P e = some s')
    (ht : s'.active ∈ r.next e q) : s'.active = P.idleTcb ∨
      s'.pos s'.active = .tail .threadExit ∧ s'.kernel.state s'.active = tcbStateSuspended := by
  by_cases he : e.Schedules
  · exact Or.inl ((h.step_listed ho hst).2 he q ht)
  · rw [step_other_active h.sound hst he] at ht ⊢
    rcases mem_next ht with hold | ⟨hk, -⟩
    · refine (h.leaving q hold).imp id fun ⟨hpos, hsusp⟩ => ?_
      have hne : ∀ c, e ≠ .call c := by
        rintro c rfl
        exact h.caller_not_owed hst q hold
      cases e with
      | interrupt v er cr2 =>
        obtain ⟨hp, hs⟩ := step_interrupt_other hst he
        rw [hp, hs]
        exact ⟨hpos, hsusp⟩
      | call c => exact absurd rfl (hne c)
      | yield => exact absurd trivial he
      | run regs => exact absurd ((Sys.run_cases hst).1.symm.trans hpos) (by simp)
      | ret =>
        obtain ⟨e, hret, -⟩ := Sys.ret_cases hst
        exact absurd (hret.symm.trans hpos) (by simp)
    · cases e with
      | interrupt v er cr2 =>
        have hv : faultQueue v = some q := hk
        exact absurd (Or.inr (by rw [hv]; rfl)) he
      | call c =>
        cases c with
        | threadExit => exact Or.inr ⟨exit_pos h.sound hst, (h.exited ho hst).2⟩
        | _ => cases hk
      | _ => cases hk

theorem step (h : r.Kept P) (ho : r.sys.Orderly e) (hst : r.step P e = some r') : r'.Kept P := by
  obtain ⟨s', hs, rfl⟩ := Option.map_eq_some_iff.mp hst
  refine ⟨(h.sound.step hs).1, (h.step_listed ho hs).1, fun q q' hne t h1 h2 => ?_,
    fun q hq => h.step_leaving ho hs hq⟩
  -- the active thread is owed no report where it is reported
  have hnew : ∀ q₀, e.kind = some q₀ → ∀ q, r.sys.active ∉ r.owed q := by
    intro q₀ hk q
    cases e with
    | interrupt v er cr2 =>
      have hv : faultQueue v = some q₀ := hk
      exact fun ha => ho.trap v er cr2 rfl (Or.inr (by rw [hv]; rfl))
        (h.reported_iff.mpr ⟨q, ha⟩)
    | call c => exact h.caller_not_owed hs q
    | _ => cases hk
  rcases mem_next h1 with h1 | ⟨hk, rfl⟩
  · rcases mem_next h2 with h2 | ⟨hk, rfl⟩
    · exact h.disjoint q q' hne h1 h2
    · exact hnew q' hk q h1
  · rcases mem_next h2 with h2 | ⟨hk', -⟩
    · exact hnew q hk q' h2
    · exact hne (Option.some.inj (hk.symm.trans hk'))

theorem exact (h : r.Kept P) : r.Exact P := by
  obtain ⟨run, free, hc⟩ := h.sound.sound
  refine ⟨⟨fun q => (h.listed q).chain, h.disjoint⟩, fun q => (h.listed q).block,
    ⟨run, hc.fifo.1, fun q t ht hrun => ?_⟩, fun q => (h.listed q).fetch.2⟩
  exact (h.listed q).idle t ht ((hc.queued t).mp hrun).2

end Ledger.Kept

/-- In every run in which threads whose reports wait are left alone, each fault and each exit adds
one report, and the queues hold exactly the reports that have not been fetched. -/
theorem reports_exactly_once (b : Boot P)
    (hr : Run (Ledger.step P) (fun r e => r.sys.Orderly e) ⟨b.sys, fun _ => []⟩ r) :
    r.Exact P := by
  have hkept : r.Kept P := by
    refine hr.invariant (I := Ledger.Kept P) ?_ fun a e c ha ho hs => ha.step ho hs
    exact ⟨b.sys_sound, fun q => .nil (b.init_booted.heads q),
      fun _ _ _ => List.disjoint_nil_left _, by simp⟩
  exact hkept.exact

/-- The events of a run in which nothing can disturb a thread whose report waits, as a test. -/
def orderlyTest (s : Sys) : Event → Bool
  | .yield => true
  | .ret => true
  | .call (.faultGetZombie _) => true
  | _ => decide ((∀ q, s.kernel.queueHead q = 0) ∧ s.kernel.state s.active ≠ tcbStateWaiting)

theorem orderly_of_empty (h : ∀ q, s.kernel.queueHead q = 0)
    (hw : s.kernel.state s.active ≠ tcbStateWaiting) (e : Event) : s.Orderly e := by
  have hnone : ∀ t, ¬ s.kernel.Reported t := by
    rintro t ⟨q, hq⟩
    exact absurd ((Chain.nil_iff.mpr (h q)).mem_iff_meets.mpr hq) List.not_mem_nil
  refine ⟨fun _ _ _ _ _ => hnone _, fun _ _ hr => absurd hr (hnone _),
    fun _ _ hr => absurd hr (hnone _), fun _ t _ _ _ hst => ⟨hnone t, ?_⟩⟩
  rintro rfl
  exact hw hst

theorem orderly_of_test (h : orderlyTest s e = true) : s.Orderly e := by
  have hcalm : (∀ v er cr2, e ≠ .interrupt v er cr2) → (∀ th, e ≠ .call (.threadResume th)) →
      (∀ th, e ≠ .call (.threadReap th)) → (∀ v, ¬ s.Fires v e) → s.Orderly e := fun h1 h2 h3 h4 =>
    ⟨fun v er cr2 he => absurd he (h1 v er cr2), fun th he => absurd he (h2 th),
      fun th he => absurd he (h3 th), fun v _ _ hf => absurd hf (h4 v)⟩
  have hempty : (decide ((∀ q, s.kernel.queueHead q = 0) ∧
      s.kernel.state s.active ≠ tcbStateWaiting)) = true → s.Orderly e := fun h =>
    orderly_of_empty (of_decide_eq_true h).1 (of_decide_eq_true h).2 e
  cases e with
  | yield => exact hcalm (by simp) (by simp) (by simp) fun _ hf => hf
  | ret => exact hcalm (by simp) (by simp) (by simp) fun _ hf => hf
  | run regs => exact hempty h
  | interrupt v er cr2 => exact hempty h
  | call c =>
    cases c with
    | faultGetZombie info => exact hcalm (by simp) (by simp) (by simp) fun _ hf => hf
    | _ => exact hempty h

/-- Thread 2 exits, and thread 1 fetches the report. -/
theorem reports_exactly_once_exit : ∃ r : Ledger, r.sys.kernel.state (tcbGet r.sys.kernel 2) =
    tcbStateSuspended ∧ r.owed .zombie = [] ∧ r.Exact lowPlatform := by
  obtain ⟨r, hr, hs⟩ := Run.exists_of_guarded (Ledger.step lowPlatform)
    (fun r e => orderlyTest r.sys e = true) ⟨lowBoot.sys, fun _ => []⟩
    [.call .threadCreate, .yield, .ret, .call (.threadResume 2), .yield, .call .threadExit, .yield,
      .ret, .call (.faultGetZombie 1)]
    (fun r => decide (r.sys.kernel.state (tcbGet r.sys.kernel 2) = tcbStateSuspended ∧
      r.owed .zombie = [])) (by decide +kernel)
  obtain ⟨h1, h2⟩ := of_decide_eq_true hs
  exact ⟨r, h1, h2, reports_exactly_once lowBoot (hr.mono fun _ _ => orderly_of_test)⟩

/-- Thread 2 exits, and thread 1 resumes it before it fetches the report: the thread is on the
zombie queue and on the run queue. -/
theorem resumed_zombie : ¬ ∀ (P : Platform) (b : Boot P) (r : Ledger),
    Run (Ledger.step P) Free ⟨b.sys, fun _ => []⟩ r → r.Exact P := by
  intro h
  obtain ⟨r, hr, hs⟩ := Run.exists_of_exec (Ledger.step lowPlatform) ⟨lowBoot.sys, fun _ => []⟩
    [.call .threadCreate, .yield, .ret, .call (.threadResume 2), .yield, .call .threadExit, .yield,
      .ret, .call (.threadResume 2)]
    (fun r => decide (r.owed .zombie = [r.sys.kernel.scheduleHead] ∧
      r.sys.kernel.scheduleHead ≠ 0)) (by decide +kernel)
  obtain ⟨howed, h0⟩ := of_decide_eq_true hs
  obtain ⟨run, hrun, hdis⟩ := (h lowPlatform lowBoot r hr).run
  obtain ⟨m, rfl, -⟩ := hrun.exists_cons h0
  exact hdis .zombie (howed ▸ List.mem_singleton.mpr rfl) (List.mem_cons_self ..)

end Kept
end Pinion64
