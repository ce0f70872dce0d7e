import Pinion64.Reports
import Mathlib.Data.List.Rotate

/-! The order in which the scheduler gives the core to the threads of the run queue. -/
namespace Pinion64
open Intrusive Transition

/-- The events that execute scheduler_schedule, each of them once. -/
def Event.Schedules : Event → Prop
  | .interrupt v _ _ => v = 32 ∨ (faultQueue v).isSome
  | .yield => True
  | _ => False

instance (e : Event) : Decidable e.Schedules := by
  cases e <;> unfold Event.Schedules <;> infer_instance

/-- The running system with the number of executions of scheduler_schedule, the blocks that they
made active and RUNNING, in this order, and the blocks that thread_pause took off the run queue. -/
structure Turns where
  sys : Sys
  schedules : ℕ
  ran : List Ptr
  paused : List Ptr

namespace Turns

def start (s : Sys) : Turns := ⟨s, 0, [], []⟩

/-- The blocks that have been paused after an event. -/
def nextPaused (w : Turns) : Event → List Ptr
  | .call (.threadPause th) =>
    if w.sys.kernel.state (target w.sys.kernel th) = tcbStateQueued then
      target w.sys.kernel th :: w.paused
    else w.paused
  | _ => w.paused

def step (P : Platform) (w : Turns) (e : Event) : Option Turns :=
  (w.sys.step P e).map fun s => {
    sys := s
    schedules := if e.Schedules then w.schedules + 1 else w.schedules
    ran := if e.Schedules ∧ s.kernel.state s.active = tcbStateRunning then w.ran ++ [s.active]
      else w.ran
    paused := w.nextPaused e }

end Turns

variable {P : Platform} {k k' : Kernel} {s s' : Sys} {e : Event} {t x : Ptr}
  {run free l : List Ptr}

section Schedule

/-- The first block of the queue is dispatched, the one that was active being put at its end. -/
theorem Coherent.schedule (h : Coherent P k run free)
    (hl : (if k.activeTcb = 0 then run else run ++ [k.activeTcb]) = x :: l) :
    ∃ free', Coherent P (schedulerSchedule P k).1 l free' ∧
      (schedulerSchedule P k).1.activeTcb = x ∧
      (schedulerSchedule P k).1.state x = tcbStateRunning := by
  obtain ⟨k₁, k₂, f, hs⟩ := Sound.schedule ⟨run, free, h⟩
  obtain ⟨_, free₁, hk₁, h₁⟩ := h.effect (e := .unload) trivial
  obtain rfl := Option.some.inj (hs.unload.symm.trans hk₁)
  have h₂ : ∃ free₂, Coherent P k₂ (x :: l) free₂ := by
    by_cases h0 : k.activeTcb = 0
    · rw [if_pos h0] at hl
      rw [hs.idle h0, ← hl]
      exact ⟨free₁, h₁⟩
    · rw [if_neg h0] at hl
      obtain ⟨hen, hk₂⟩ := hs.requeue h0
      obtain ⟨_, free₂, hk₂', h₂⟩ := h₁.effect hen
      obtain rfl := Option.some.inj (hk₂.symm.trans hk₂')
      rw [← hl]
      exact ⟨free₂, h₂⟩
  obtain ⟨free₂, h₂⟩ := h₂
  obtain ⟨hhead, hx, -⟩ := Chain.cons_iff.mp h₂.fifo.1
  obtain ⟨_, free₃, hk₃, h₃⟩ := h₂.effect hs.enabled
  obtain rfl := Option.some.inj (hs.load.symm.trans hk₃)
  have hact := (Effect.spec ⟨_, _, h₂⟩ hs.enabled hs.load).active
  rcases hs.choice with ⟨rfl, hf⟩ | ⟨rfl, -⟩
  · rw [hhead] at hact
    refine ⟨free₃, h₃, hact, ?_⟩
    rcases (schedule_effects ⟨run, free, h⟩).2 with ⟨-, hrun, -⟩ | ⟨hidle, -⟩
    · rw [hact] at hrun
      exact hrun
    · exact absurd (hf.symm.trans hidle) (by decide)
  · exact absurd (hhead.symm.trans hs.enabled.2) hx

/-- What may happen between the arrival of an event and its execution of scheduler_schedule. -/
def BeforeSchedule : Effect → Prop
  | .regs .. => True
  | .unload => True
  | .report .. => True
  | .flag .. => True
  | .wake .. => True
  | .unwait .. => True
  | _ => False

/-- An event that schedules ends in scheduler_schedule, with the block active that was, or none.
A running block is unloaded beforehand by a fault only. -/
theorem step_schedule (h : SysSound P s) (hst : s.step P e = some s') (he : e.Schedules) :
    ∃ k₁, Effects P BeforeSchedule s.kernel k₁ ∧ s'.kernel = (schedulerSchedule P k₁).1 ∧
      (k₁.activeTcb = 0 ∧ (s.kernel.state s.active = tcbStateRunning →
          ∃ v er cr2, e = .interrupt v er cr2 ∧ (faultQueue v).isSome) ∨
        k₁.activeTcb = s.active) := by
  have hsave : ∀ cpu iv er, Effects P BeforeSchedule s.kernel (saveState s.kernel cpu iv er) :=
    fun cpu iv er => .single (e := .regs s.active cpu iv 0 er) trivial trivial rfl
  have hiv : ∀ cpu iv er, ((saveState s.kernel cpu iv er).tcb s.active).ivect = iv :=
    fun cpu iv er => congrArg Tcb.ivect (Kernel.updTcb_self ..)
  cases e with
  | interrupt v er cr2 =>
    rcases he with rfl | hq
    · obtain ⟨-, er', hk⟩ := step_interrupt hst
      refine ⟨_, hsave s.cpu 32 er', ?_, Or.inr rfl⟩
      rw [hk, fault, hiv, if_pos rfl]
    · obtain ⟨q, hq⟩ := Option.isSome_iff_exists.mp hq
      obtain ⟨k₂, heff, h0, hstate, htable, hk⟩ := step_fault h hst hq
      have hactive : (s.kernel.Live s.active ∨ s.active = P.idleTcb) ∧
          s.kernel.state s.active ≠ tcbStateQueued := by
        obtain ⟨run, free, hc⟩ := h.sound
        exact hc.active.resolve_left h.active
      have hs₂ := h.sound.effects heff
      have hen : Enabled P k₂ (.report q s.active) := by
        rw [Enabled, Kernel.Live, htable, hstate]
        exact hactive
      obtain ⟨_, hk₃, hs₃⟩ := hs₂.effect hen
      obtain rfl := Option.some.inj hk₃
      have ha₃ : (enqueue k₂ q s.active).activeTcb = 0 :=
        (Effect.spec hs₂ hen rfl).active.trans h0
      have hfire := fire_effects hs₃ (vectorPage_vector q) (Or.inl ha₃)
      refine ⟨_, ((heff.weaken ?_).tail ⟨hen, trivial⟩ rfl).trans (hfire.weaken ?_), hk,
        Or.inl ⟨((FireFrame.refl _).effects hs₃ hfire).active.trans ha₃,
          fun _ => ⟨v, er, cr2, rfl, by rw [hq]; rfl⟩⟩⟩
      · intro f hf
        cases f with
        | regs => trivial
        | unload => trivial
        | _ => exact hf.elim
      · intro f hf
        cases f with
        | flag => trivial
        | wake => trivial
        | unwait => trivial
        | _ => exact hf.elim
  | yield =>
    obtain ⟨cpu, -, hk⟩ := step_yield hst
    have h32 : ¬ (0x100 : BitVec 32) = 32 := by decide
    rw [fault, hiv, if_neg h32, if_pos rfl] at hk
    dsimp only at hk
    split_ifs at hk with hy
    · refine ⟨_, (hsave cpu 0x100 0).tail (e := .unload) ⟨trivial, trivial⟩ rfl, hk,
        Or.inl ⟨ccbUnloadTcb_active _, fun hr => ?_⟩⟩
      exact absurd ((saveState_state ..).trans hr) hy.2
    · exact ⟨_, hsave cpu 0x100 0, hk, Or.inr rfl⟩
  | _ => exact he.elim

/-- An event that does not schedule dispatches nobody. -/
theorem step_other (h : SysSound P s) (hst : s.step P e = some s') (he : ¬ e.Schedules) :
    Effects P (fun f => s.May e f ∧ (∀ x, f ≠ .dispatch x) ∧ f ≠ .unload) s.kernel s'.kernel := by
  cases e with
  | interrupt v er cr2 =>
    obtain ⟨hv, er', hk⟩ := step_interrupt hst
    rw [Event.Schedules, not_or, Option.not_isSome_iff_eq_none] at he
    have hsame := fault_other (P := P) (k := saveState s.kernel s.cpu v er')
      (congrArg Tcb.ivect (Kernel.updTcb_self ..)) he.1 hv.ne_yield he.2
    rw [hk]
    change Effects P _ _ (fault P _ (saveState s.kernel s.cpu v er').activeTcb).1
    rw [hsame]
    exact .single (e := .regs s.active s.cpu v 0 er') trivial ⟨rfl, by simp, by simp⟩ rfl
  | yield => exact absurd trivial he
  | call c =>
    refine (h.step hst).2.weaken fun f hf => ⟨hf, ?_, ?_⟩
    · rintro x rfl
      exact hf
    · rintro rfl
      exact hf
  | run r => exact (h.step hst).2.weaken fun f hf => hf.elim
  | ret => exact (h.step hst).2.weaken fun f hf => hf.elim

/-- So it leaves the core to the thread that has it. -/
theorem step_other_active (h : SysSound P s) (hst : s.step P e = some s') (he : ¬ e.Schedules) :
    s'.active = s.active := by
  refine (step_other h hst he).keep (I := fun a => a.activeTcb = s.active) rfl h.sound ?_
  rintro a f b ha hsa hen ⟨-, hd, hu⟩ hb
  rw [(Effect.spec hsa hen hb).active]
  cases f with
  | dispatch y => exact absurd rfl (hd y)
  | unload => exact absurd rfl hu
  | inject => exact absurd (ha.symm.trans hen.1) h.active
  | _ => exact ha

/-- Without a dispatch nobody gets in front of a queued block, which leaves the queue only when
it is paused. -/
theorem Coherent.behind {A : Effect → Prop} {a b : List Ptr}
    (h : Coherent P k (a ++ t :: b) free) (hr : Effects P A k k')
    (hA : ∀ f, A f → (∀ x, f ≠ .dispatch x) ∧ f ≠ .block t) :
    ∃ a' b' free', Coherent P k' (a' ++ t :: b') free' ∧ a'.Sublist a := by
  refine hr.keep (I := fun k => ∃ a' b' free', Coherent P k (a' ++ t :: b') free' ∧ a'.Sublist a)
    ⟨a, b, free, h, .refl _⟩ ⟨_, _, h⟩ ?_
  rintro k f k' ⟨a', b', free', hc, hsub⟩ - he hf hk
  obtain ⟨_, free'', hk', hc'⟩ := hc.effect he
  obtain rfl := Option.some.inj (hk.symm.trans hk')
  obtain ⟨hd, hb⟩ := hA f hf
  cases f with
  | ready x => exact ⟨a', b' ++ [x], free'', by simpa [Effect.line] using hc', hsub⟩
  | wake v x j => exact ⟨a', b' ++ [x], free'', by simpa [Effect.line] using hc', hsub⟩
  | dispatch x => exact absurd rfl (hd x)
  | block x =>
    have hx : t ≠ x := by
      rintro rfl
      exact hb rfl
    rw [Effect.line] at hc'
    by_cases ha : x ∈ a'
    · rw [List.erase_append_left _ ha] at hc'
      exact ⟨_, _, _, hc', (List.erase_sublist).trans hsub⟩
    · rw [List.erase_append_right _ ha, List.erase_cons_tail (by simpa using hx)] at hc'
      exact ⟨_, _, _, hc', hsub⟩
  | _ => exact ⟨a', b', free'', hc', hsub⟩

end Schedule
section Waiting

theorem Sys.May.block (h : s.May e (.block t)) :
    ∃ th, e = .call (.threadPause th) ∧ t = target s.kernel th := by
  cases e with
  | call c =>
    obtain ⟨th, rfl, ht⟩ := h
    exact ⟨th, rfl, ht⟩
  | _ => exact h.elim

namespace Turns

variable {w w' : Turns} {ahead : List Ptr}

/-- A block was queued behind others: it has run, it has been paused, or it waits behind those of
them that have neither run nor been paused. -/
def Waits (P : Platform) (ahead : List Ptr) (t : Ptr) (w : Turns) : Prop :=
  t ∈ w.ran ∨ t ∈ w.paused ∨ ∃ a b free, Coherent P w.sys.kernel (a ++ t :: b) free ∧
    (w.ran ++ a).Sublist ahead ∧ w.schedules = w.ran.length

theorem nextPaused_of_mem (ht : t ∈ w.paused) : t ∈ w.nextPaused e := by
  unfold nextPaused
  split
  · split_ifs
    · exact List.mem_cons_of_mem _ ht
    · exact ht
  · exact ht

/-- The schedule of an event takes the first of those ahead, or the block itself. -/
theorem waits_schedule {a b : List Ptr} (hs : SysSound P w.sys) (he : e.Schedules)
    (hst : w.sys.step P e = some s') (hc : Coherent P w.sys.kernel (a ++ t :: b) free) :
    s'.kernel.state s'.active = tcbStateRunning ∧
      (s'.active = t ∨ ∃ a' b' free', Coherent P s'.kernel (a' ++ t :: b') free' ∧
        (s'.active :: a').Sublist a) := by
  obtain ⟨k₁, heff, hk, -⟩ := step_schedule hs hst he
  have hkeep : ∀ f, BeforeSchedule f → (∀ x, f ≠ .dispatch x) ∧ f ≠ .block t := by
    intro f hf
    refine ⟨?_, ?_⟩
    · rintro x rfl
      exact hf
    · rintro rfl
      exact hf
  obtain ⟨a', b', free', hc', hsub⟩ := hc.behind heff hkeep
  obtain ⟨x, l, hl⟩ : ∃ x l, (if k₁.activeTcb = 0 then a' ++ t :: b'
      else a' ++ t :: b' ++ [k₁.activeTcb]) = x :: l := by
    apply List.exists_cons_of_ne_nil
    split_ifs <;> simp
  obtain ⟨free'', hnew, hact, hrun⟩ := hc'.schedule hl
  rw [← hk] at hnew hact hrun
  have hactive : s'.active = x := hact
  rw [hactive]
  refine ⟨hrun, ?_⟩
  cases a' with
  | nil =>
    left
    split_ifs at hl
    · exact (List.cons.inj hl).1.symm
    · exact (List.cons.inj hl).1.symm
  | cons y a'' =>
    right
    split_ifs at hl
    · obtain ⟨rfl, rfl⟩ := List.cons.inj hl
      exact ⟨a'', b', free'', hnew, hsub⟩
    · obtain ⟨rfl, rfl⟩ := List.cons.inj hl
      exact ⟨a'', b' ++ [k₁.activeTcb], free'', by simpa using hnew, hsub⟩

theorem Waits.step (h : Waits P ahead t w) (hs : SysSound P w.sys) (hw : w.step P e = some w') :
    Waits P ahead t w' := by
  obtain ⟨s', hst, rfl⟩ := Option.map_eq_some_iff.mp hw
  rcases h with ht | ht | ⟨a, b, free, hc, hsub, hcount⟩
  · left
    dsimp only
    split_ifs
    · exact List.mem_append_left _ ht
    · exact ht
  · exact Or.inr (Or.inl (nextPaused_of_mem ht))
  have hq : w.sys.kernel.state t = tcbStateQueued := ((hc.queued t).mp (by simp)).2
  by_cases hpause : ∃ th, e = .call (.threadPause th) ∧ t = target w.sys.kernel th
  · obtain ⟨th, rfl, rfl⟩ := hpause
    refine Or.inr (Or.inl ?_)
    simp only [nextPaused, if_pos hq]
    exact List.mem_cons_self ..
  by_cases he : e.Schedules
  · obtain ⟨hrun, hturn⟩ := waits_schedule hs he hst hc
    simp only [Waits, if_pos he, if_pos (And.intro he hrun)]
    rcases hturn with rfl | ⟨a', b', free', hc', hsub'⟩
    · exact Or.inl (List.mem_append_right _ (List.mem_singleton_self _))
    · refine Or.inr (Or.inr ⟨a', b', free', hc', ?_, ?_⟩)
      · rw [List.append_assoc]
        exact ((List.Sublist.refl w.ran).append hsub').trans hsub
      · rw [List.length_append, hcount]
        rfl
  · obtain ⟨a', b', free', hc', hsub'⟩ := hc.behind (step_other hs hst he) fun f hf => by
      refine ⟨hf.2.1, ?_⟩
      rintro rfl
      exact hpause hf.1.block
    simp only [Waits, if_neg he, if_neg fun hx : e.Schedules ∧ _ => he hx.1]
    exact Or.inr (Or.inr ⟨a', b', free', hc',
      ((List.Sublist.refl w.ran).append hsub').trans hsub, hcount⟩)

theorem waits_run {behind : List Ptr} (hs : SysSound P s)
    (hc : Coherent P s.kernel (ahead ++ t :: behind) free)
    (hr : Run (Turns.step P) Free (start s) w) : Waits P ahead t w := by
  have hboth := hr.invariant (I := fun w => SysSound P w.sys ∧ Waits P ahead t w)
    ⟨hs, Or.inr (Or.inr ⟨ahead, behind, free, hc, .refl _, rfl⟩)⟩ fun a e b ha _ hb => by
      have hnext := ha.2.step ha.1 hb
      obtain ⟨s', hst, rfl⟩ := Option.map_eq_some_iff.mp hb
      exact ⟨(ha.1.step hst).1, hnext⟩
  exact hboth.2

end Turns
end Waiting

section Rotation

/-- The events that come between two turns when nothing happens but turns: the active thread
computes or yields, and interrupts strike that report no fault. -/
def Sys.Plain (s : Sys) : Event → Prop
  | .run _ => True
  | .call c => c = .threadYield
  | .interrupt v _ _ => faultQueue v = none
  | .yield => s.yieldCode ≠ 0 ∨ s.kernel.state s.active = tcbStateRunning
  | .ret => True

/-- A plain event that schedules does nothing else. -/
theorem plain_schedule (hst : s.step P e = some s') (he : e.Schedules) (hp : s.Plain e) :
    ∃ cpu iv er, s'.kernel = (schedulerSchedule P (saveState s.kernel cpu iv er)).1 := by
  have hiv : ∀ cpu iv er, ((saveState s.kernel cpu iv er).tcb s.active).ivect = iv :=
    fun cpu iv er => congrArg Tcb.ivect (Kernel.updTcb_self ..)
  have hrdi : ∀ cpu iv er, ((saveState s.kernel cpu iv er).tcb s.active).regs = cpu :=
    fun cpu iv er => congrArg Tcb.regs (Kernel.updTcb_self ..)
  have hstate : ∀ cpu iv er, ((saveState s.kernel cpu iv er).tcb s.active).state =
      s.kernel.state s.active := fun cpu iv er => saveState_state ..
  cases e with
  | interrupt v er cr2 =>
    obtain ⟨-, er', hk⟩ := step_interrupt hst
    have h32 : v = 32 := he.resolve_right (by simp [show faultQueue v = none from hp])
    subst h32
    refine ⟨s.cpu, 32, er', ?_⟩
    rw [hk, fault, hiv, if_pos rfl]
  | yield =>
    obtain ⟨cpu, hcpu, hk⟩ := step_yield hst
    have h32 : ¬ (0x100 : BitVec 32) = 32 := by decide
    have hy : ¬ (cpu.rdi = 0 ∧ s.kernel.state s.active ≠ tcbStateRunning) := by
      rw [hcpu]
      rintro ⟨h0, h1⟩
      exact hp.elim (fun hn => hn h0) h1
    refine ⟨cpu, 0x100, 0, ?_⟩
    rw [hk, fault, hiv, if_neg h32, if_pos rfl]
    simp only [hrdi, hstate, if_neg hy]
  | _ => exact he.elim

/-- Any other plain event only saves registers. -/
theorem plain_other (h : SysSound P s) (hst : s.step P e = some s') (he : ¬ e.Schedules)
    (hp : s.Plain e) : s'.kernel = s.kernel ∨
      ∃ cpu iv er, s'.kernel = saveState s.kernel cpu iv er := by
  cases e with
  | interrupt v er cr2 =>
    obtain ⟨hv, er', hk⟩ := step_interrupt hst
    rw [Event.Schedules, not_or] at he
    exact Or.inr ⟨s.cpu, v, er', hk.trans (fault_other (k := saveState s.kernel s.cpu v er')
      (congrArg Tcb.ivect (Kernel.updTcb_self ..)) he.1 hv.ne_yield hp)⟩
  | yield => exact absurd trivial he
  | call c =>
    obtain rfl := (show c = .threadYield from hp)
    obtain ⟨-, -, r, hb⟩ := h.step_call hst
    exact Or.inl (congrArg Prod.snd (Option.some.inj hb)).symm
  | run r =>
    obtain ⟨-, heff⟩ := h.step hst
    exact Or.inl (heff.keep (I := fun k => k = s.kernel) rfl h.sound fun _ _ _ _ _ _ hf => hf.elim)
  | ret =>
    obtain ⟨-, heff⟩ := h.step hst
    exact Or.inl (heff.keep (I := fun k => k = s.kernel) rfl h.sound fun _ _ _ _ _ _ hf => hf.elim)

namespace Turns

variable {w w' : Turns}

/-- After some turns the run queue with the active block behind it has been rotated as often. -/
structure Rotated (P : Platform) (l : List Ptr) (w : Turns) : Prop where
  sound : SysSound P w.sys
  line : ∃ run free, Coherent P w.sys.kernel run free ∧
    run ++ [w.sys.active] = l.rotate w.schedules
  ran : w.schedules ≤ l.length → w.ran = l.take w.schedules

theorem Rotated.step (h : Rotated P l w) (hp : w.sys.Plain e) (hw : w.step P e = some w') :
    Rotated P l w' := by
  obtain ⟨s', hst, rfl⟩ := Option.map_eq_some_iff.mp hw
  obtain ⟨run, free, hc, hline⟩ := h.line
  have hsave : ∀ cpu iv er, Coherent P (saveState w.sys.kernel cpu iv er) run free :=
    fun cpu iv er => hc.updTcb _ _ fun _ => ⟨rfl, rfl, rfl, rfl⟩
  have hsound := (h.sound.step hst).1
  by_cases he : e.Schedules
  · obtain ⟨cpu, iv, er, hk⟩ := plain_schedule hst he hp
    obtain ⟨x, m, hm⟩ := List.exists_cons_of_ne_nil
      (show run ++ [w.sys.active] ≠ [] by simp)
    have hl : (if (saveState w.sys.kernel cpu iv er).activeTcb = 0 then run
        else run ++ [(saveState w.sys.kernel cpu iv er).activeTcb]) = x :: m :=
      (if_neg h.sound.active).trans hm
    obtain ⟨free', hnew, hact, hrun⟩ := (hsave cpu iv er).schedule hl
    rw [← hk] at hnew hact hrun
    have hactive : s'.active = x := hact
    have hrot : l.rotate w.schedules = x :: m := hline.symm.trans hm
    refine ⟨hsound, ⟨m, free', hnew, ?_⟩, ?_⟩
    · rw [if_pos he, ← List.rotate_rotate, hrot, hactive, List.rotate_cons_succ, List.rotate_zero]
    · rw [if_pos he, if_pos ⟨he, hactive ▸ hrun⟩]
      intro hle
      change w.schedules + 1 ≤ l.length at hle
      rw [h.ran (by omega), hactive]
      have hx : l[w.schedules]? = some x := by
        rw [← List.head?_rotate (by omega), hrot]
        rfl
      rw [List.take_add_one, hx]
      rfl
  · have hkeep : Coherent P s'.kernel run free ∧ s'.active = w.sys.active := by
      rcases plain_other h.sound hst he hp with hk | ⟨cpu, iv, er, hk⟩
      · exact ⟨hk ▸ hc, congrArg Kernel.activeTcb hk⟩
      · exact ⟨hk ▸ hsave cpu iv er, by rw [Sys.active, hk]; rfl⟩
    refine ⟨hsound, ⟨run, free, hkeep.1, ?_⟩, ?_⟩
    · rw [if_neg he, hkeep.2]
      exact hline
    · rw [if_neg he, if_neg fun hx => he hx.1]
      exact h.ran

theorem rotated_run (hs : SysSound P s) (hc : Coherent P s.kernel run free)
    (hr : Run (Turns.step P) (fun w e => w.sys.Plain e) (start s) w) :
    Rotated P (run ++ [s.active]) w :=
  hr.invariant (I := Rotated P (run ++ [s.active]))
    ⟨hs, ⟨run, free, hc, by simp [start]⟩, by simp [start]⟩
    fun _ _ _ ha hp hb => ha.step hp hb

/-- The timer can always strike. -/
theorem tick (er cr2 : Word) (hs : SysSound P w.sys) (hh : w.sys.halted = false) :
    ∃ s', w.sys.step P (.interrupt 32 er cr2) = some s' ∧ s'.halted = false := by
  have h14 : ¬ (32 : BitVec 32) = 14 := by decide
  have herr : (32 : BitVec 32) ∉ errorVectors := by decide
  refine ⟨w.sys.enter P 32 0, ?_, ?_⟩
  · simp only [Sys.step, hh, if_neg h14, if_neg herr]
    rfl
  · have hiv : ((saveState w.sys.kernel w.sys.cpu 32 0).tcb w.sys.kernel.activeTcb).ivect = 32 :=
      congrArg Tcb.ivect (Kernel.updTcb_self ..)
    have hactive : (saveState w.sys.kernel w.sys.cpu 32 0).activeTcb = w.sys.kernel.activeTcb := rfl
    have hfault : fault P (saveState w.sys.kernel w.sys.cpu 32 0) w.sys.kernel.activeTcb =
        schedulerSchedule P (saveState w.sys.kernel w.sys.cpu 32 0) := by
      rw [fault, hiv, if_pos rfl]
    have hs' : Sound P (saveState w.sys.kernel w.sys.cpu 32 0) :=
      hs.sound.effects (A := fun _ => True)
        (.single (e := .regs w.sys.active w.sys.cpu 32 0 0) trivial trivial rfl)
    have hend := (schedule_effects hs').2
    simp only [Sys.enter, hactive, hfault]
    generalize schedulerSchedule P (saveState w.sys.kernel w.sys.cpu 32 0) = r at hend
    obtain ⟨k', _ | _ | _⟩ := r
    · exact hh
    · exact hh
    · simp at hend

/-- It can strike again and again. -/
theorem ticks (er cr2 : Word) (n : ℕ) (hs : SysSound P w.sys) (hh : w.sys.halted = false) :
    ∃ w', exec (Turns.step P) w (List.replicate n (.interrupt 32 er cr2)) = some w' ∧
      w'.schedules = w.schedules + n := by
  induction n generalizing w with
  | zero => exact ⟨w, rfl, rfl⟩
  | succ n ih =>
    obtain ⟨s', hst, hh'⟩ := tick er cr2 hs hh
    have hsch : Event.Schedules (.interrupt 32 er cr2) := Or.inl rfl
    obtain ⟨w₁, hw₁, hsys, hone⟩ : ∃ w₁, w.step P (.interrupt 32 er cr2) = some w₁ ∧
        w₁.sys = s' ∧ w₁.schedules = w.schedules + 1 :=
      ⟨_, congrArg (Option.map _) hst, rfl,
        (if_pos hsch : (if _ then w.schedules + 1 else w.schedules) = _)⟩
    obtain ⟨w', hw', hcount⟩ := ih (hsys ▸ (hs.step hst).1) (hsys ▸ hh')
    refine ⟨w', ?_, ?_⟩
    · rw [List.replicate_succ, exec, hw₁]
      exact hw'
    · rw [hcount, hone]
      omega

end Turns
end Rotation

/-- The blocks of the run queue get their turns in the order of the queue. With `k` blocks ahead of
it, a block has run or has been paused when scheduler_schedule has been executed `k + 1` times, and
before that only some of those ahead of it have run, each once and in their order. While nothing
happens but turns, every block gets one turn, after which the queue is as it was. -/
structure InTurn (P : Platform) (s : Sys) (run : List Ptr) : Prop where
  bound : ∀ ahead t behind, run = ahead ++ t :: behind →
    ∀ w, Run (Turns.step P) Free (.start s) w → ahead.length + 1 ≤ w.schedules →
      t ∈ w.ran ∨ t ∈ w.paused
  order : ∀ ahead t behind, run = ahead ++ t :: behind →
    ∀ w, Run (Turns.step P) Free (.start s) w → t ∉ w.ran → t ∉ w.paused → w.ran.Sublist ahead
  once : (run ++ [s.active]).Nodup
  round : ∀ w, Run (Turns.step P) (fun w e => w.sys.Plain e) (.start s) w →
    w.schedules = run.length + 1 → w.ran = run ++ [s.active] ∧ w.sys.active = s.active ∧
      Chain w.sys.kernel.next 0 w.sys.kernel.scheduleHead run
  ticks : s.halted = false → ∀ er cr2, ∃ w, exec (Turns.step P) (.start s)
    (List.replicate (run.length + 1) (.interrupt 32 er cr2)) = some w ∧
      w.schedules = run.length + 1

/-- Nobody is overtaken in the run queue of a reachable state. -/
theorem no_overtaking (b : Boot P) (h : Reach b s)
    (hq : Chain s.kernel.next 0 s.kernel.scheduleHead run) : InTurn P s run := by
  have hs := h.sound
  obtain ⟨run', free, hc⟩ := hs.sound
  obtain rfl := hq.unique hc.fifo.1
  refine ⟨?_, ?_, ?_, ?_, ?_⟩
  · rintro ahead t behind rfl w hr hlt
    rcases Turns.waits_run hs hc hr with ht | ht | ⟨a, b', free', -, hsub, hcount⟩
    · exact Or.inl ht
    · exact Or.inr ht
    · have hle := hsub.length_le
      rw [List.length_append] at hle
      omega
  · rintro ahead t behind rfl w hr h1 h2
    obtain ⟨a, b', free', -, hsub, -⟩ :=
      ((Turns.waits_run hs hc hr).resolve_left h1).resolve_left h2
    exact (List.sublist_append_left ..).trans hsub
  · rw [List.nodup_append]
    refine ⟨hc.fifo.1.nodup, List.nodup_singleton _, ?_⟩
    rintro x hx y hy rfl
    obtain rfl := List.mem_singleton.mp hy
    exact hc.active_not_mem hs.active hx
  · intro w hr hcount
    have hrot := Turns.rotated_run hs hc hr
    obtain ⟨run', free', hc', hline⟩ := hrot.line
    have hlen : (run ++ [s.active]).length = run.length + 1 := List.length_append
    rw [hcount, ← hlen, List.rotate_length] at hline
    obtain ⟨rfl, hact⟩ := List.append_inj' hline rfl
    refine ⟨?_, List.singleton_inj.mp hact, hc'.fifo.1⟩
    rw [hrot.ran (by omega), hcount, ← hlen, List.take_length]
  · intro hh er cr2
    obtain ⟨w, hw, hcount⟩ := Turns.ticks (w := .start s) er cr2 (run.length + 1) hs hh
    exact ⟨w, hw, hcount.trans (Nat.zero_add _)⟩

/-- Thread 1 waits in the queue while thread 2 runs. -/
theorem no_overtaking_two_threads : ∃ s, Reach lowBoot s ∧ s.active = tcbGet s.kernel 2 ∧
    tcbGet s.kernel 1 ≠ 0 ∧ Chain s.kernel.next 0 s.kernel.scheduleHead [tcbGet s.kernel 1] ∧
    InTurn lowPlatform s [tcbGet s.kernel 1] := by
  obtain ⟨s, h, hs⟩ := Run.exists_of_exec (Sys.step lowPlatform) lowBoot.sys
    [.call .threadCreate, .yield, .ret, .call (.threadResume 2), .interrupt 32 0 0]
    (fun s => s.active = tcbGet s.kernel 2 ∧ tcbGet s.kernel 1 ≠ 0 ∧
      s.kernel.scheduleHead = tcbGet s.kernel 1 ∧ s.kernel.next (tcbGet s.kernel 1) = 0)
    (by decide +kernel)
  obtain ⟨hactive, hne, hhead, hnext⟩ := of_decide_eq_true hs
  have hchain : Chain s.kernel.next 0 s.kernel.scheduleHead [tcbGet s.kernel 1] := by
    rw [hhead]
    exact Chain.cons_iff.mpr ⟨rfl, hne, Chain.nil_iff.mpr hnext⟩
  exact ⟨s, h, hactive, hne, hchain, no_overtaking lowBoot h hchain⟩

end Pinion64
