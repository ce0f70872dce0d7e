import Pinion64.Reap

/-! The report queues: which reports wait in a queue, and how the events add and take them. -/
namespace Pinion64
open Intrusive Transition

instance : Fintype TcbQueue where
  elems := {.pagefault, .miscfault, .zombie}
  complete q := by cases q <;> decide

/-- The state that no vector changes and from which nobody waits. -/
def Kernel.AtRest (k : Kernel) (t : Ptr) : Prop :=
  k.state t ≠ tcbStateQueued ∧ k.state t ≠ tcbStateWaiting ∧
    k.state t ≠ tcbStateSuspendedWaiting

/-- A report queue leads to the block. -/
def Kernel.InQueue (k : Kernel) (q : TcbQueue) (t : Ptr) : Prop := Meets k.next 0 (k.queueHead q) t

/-- The blocks that a queue holds, the latest first; none of them is on the run queue. -/
structure Listed (P : Platform) (k : Kernel) (q : TcbQueue) (l : List Ptr) : Prop where
  chain : Chain k.next 0 (k.queueHead q) l
  block : ∀ t ∈ l, k.Live t ∨ t = P.idleTcb
  idle : ∀ t ∈ l, k.state t ≠ tcbStateQueued

/-- The blocks whose reports wait in a queue, the latest first. -/
structure Pending (P : Platform) (k : Kernel) (q : TcbQueue) (l : List Ptr) : Prop where
  chain : Chain k.next 0 (k.queueHead q) l
  block : ∀ t ∈ l, k.Live t ∨ t = P.idleTcb
  rest : ∀ t ∈ l, k.AtRest t

/-- The steps that leave the blocks of a queue in it. -/
def Effect.Passes (q : TcbQueue) (l : List Ptr) : Effect → Prop
  | ready t => t ∉ l
  | wake _ t _ => t ∉ l
  | report q' t => q' ≠ q ∧ t ∉ l
  | fetch q' => q' ≠ q
  | reap t => t ∉ l
  | _ => True

/-- The steps that leave the blocks of a queue where they are. -/
def Effect.Spares (q : TcbQueue) (l : List Ptr) : Effect → Prop
  | ready t => t ∉ l
  | shift t s => t ∈ l → s ≠ tcbStateWaiting
  | report q' t => q' ≠ q ∧ t ∉ l
  | fetch q' => q' ≠ q
  | reap t => t ∉ l
  | _ => True

/-- What a report tells of a block besides the kind of fault. -/
def reportData (b : Tcb) : BitVec 32 × Word := (b.id, b.faultAddr)

theorem reportData_eq {a b : Tcb} :
    reportData a = reportData b ↔ a.id = b.id ∧ a.faultAddr = b.faultAddr :=
  Prod.mk_inj

variable {P : Platform} {k k' : Kernel} {s s' : Sys} {q : TcbQueue} {l : List Ptr} {t : Ptr}
  {f : Effect} {e : Event}

section Fetch

variable (k : Kernel) (q : TcbQueue)

theorem getQueued_fst : (getQueued k q).1 = k.queueHead q := rfl

theorem getQueued_tcb : (getQueued k q).2.tcb = k.tcb := by
  simp only [getQueued]
  split_ifs <;> rfl

theorem getQueued_paging : (getQueued k q).2.paging = k.paging := by
  simp only [getQueued]
  split_ifs <;> rfl

end Fetch

namespace Listed

theorem nil (h0 : k.queueHead q = 0) : Listed P k q [] :=
  ⟨Chain.nil_iff.mpr h0, by simp, by simp⟩

theorem mem_iff (h : Listed P k q l) : t ∈ l ↔ k.InQueue q t := h.chain.mem_iff_meets

theorem live (h : Listed P k q l) (hs : Sound P k) (he : Enabled P k f)
    (hk : f.apply P k = some k') (hf : f.Passes q l) (ht : t ∈ l) :
    k'.Live t ∧ k.Live t ∨ t = P.idleTcb := by
  refine (h.block t ht).imp_left fun hl => ⟨?_, hl⟩
  by_cases hr : ∃ x, f = .reap x
  · obtain ⟨x, rfl⟩ := hr
    refine ((Effect.spec hs he hk).table.live t).mpr ⟨hl, ?_⟩
    rintro rfl
    exact hf ht
  · exact Effect.live_mono hs he hk (fun x hx => hr ⟨x, hx⟩) hl

theorem unqueued (h : Listed P k q l) (hs : Sound P k) (he : Enabled P k f)
    (hk : f.apply P k = some k') (hf : f.Passes q l) (ht : t ∈ l) :
    k'.state t ≠ tcbStateQueued := by
  rw [(Effect.spec hs he hk).state t (h.live hs he hk hf ht)]
  have hst := h.idle t ht
  cases f with
  | ready x =>
    rw [Effect.stateOf, if_neg (ne_of_mem_of_not_mem ht hf)]
    exact hst
  | wake v x j =>
    rw [Effect.stateOf, if_neg (ne_of_mem_of_not_mem ht hf)]
    exact hst
  | dispatch x =>
    rw [Effect.stateOf]
    split_ifs
    · decide
    · exact hst
  | block x =>
    rw [Effect.stateOf]
    split_ifs
    · decide
    · exact hst
  | shift x y =>
    rw [Effect.stateOf]
    split_ifs
    · exact he.2.new.1
    · exact hst
  | unwait v x j =>
    rw [Effect.stateOf]
    split_ifs
    · decide
    · exact hst
  | _ => exact hst

/-- A step that passes the queue by changes nothing in it. -/
theorem effect (h : Listed P k q l) (hs : Sound P k) (he : Enabled P k f)
    (hk : f.apply P k = some k') (hf : f.Passes q l) : Listed P k' q l := by
  have hsp := Effect.spec hs he hk
  have hhead : k'.queueHead q = k.queueHead q := by
    rw [hsp.heads]
    cases f with
    | report q' t => exact Function.update_of_ne hf.1.symm ..
    | fetch q' =>
      have hne : q ≠ q' := Ne.symm hf
      change (getQueued k q').2.queueHead q = _
      simp only [getQueued]
      split_ifs
      · exact Function.update_of_ne hne ..
      · rfl
    | _ => rfl
  have hrel : ∀ t ∈ l, ¬ f.Relinks t := by
    intro t ht hr
    cases f with
    | ready x =>
      obtain rfl := (show t = x from hr)
      exact hf ht
    | wake v x j =>
      obtain rfl := (show t = x from hr)
      exact hf ht
    | report q' x =>
      obtain rfl := (show t = x from hr)
      exact hf.2 ht
    | _ => exact hr.elim
  refine ⟨?_, fun t ht => (h.live hs he hk hf ht).imp_left And.left,
    fun t ht => h.unqueued hs he hk hf ht⟩
  rw [hhead]
  exact h.chain.congr fun t ht => hsp.next t (h.idle t ht) (hrel t ht)

theorem effects {A : Effect → Prop} (h : Listed P k q l) (hs : Sound P k)
    (hr : Effects P A k k') (hA : ∀ f, A f → f.Passes q l) : Listed P k' q l :=
  hr.keep (I := fun a => Listed P a q l) h hs fun _ f _ ha hsa he hf hb =>
    ha.effect hsa he hb (hA f hf)

/-- A report is queued in front of the others. -/
theorem report (h : Listed P k q l) (he : k.Live t ∨ t = P.idleTcb)
    (hst : k.state t ≠ tcbStateQueued) (ht : t ∉ l) : Listed P (enqueue k q t) q (t :: l) := by
  rw [enqueue_eq]
  refine ⟨?_, fun x hx => ?_, fun x hx => ?_⟩
  · have hc := h.chain.cons_update (Coherent.ne_zero he) ht
    change Chain (Function.update k.next t (k.queueHead q)) 0
      (Function.update k.queueHead q t q) (t :: l)
    rwa [Function.update_self]
  · rcases List.mem_cons.mp hx with rfl | hx
    · exact he
    · exact h.block x hx
  · rcases List.mem_cons.mp hx with rfl | hx
    · exact hst
    · exact h.idle x hx

/-- The first report is the one that is fetched. -/
theorem fetch (h : Listed P k q l) :
    Listed P (getQueued k q).2 q l.tail ∧ (getQueued k q).1 = l.headD 0 := by
  simp only [getQueued]
  cases l with
  | nil =>
    have h0 : k.queueHead q = 0 := Chain.nil_iff.mp h.chain
    rw [if_neg (not_not.mpr h0)]
    exact ⟨h, h0⟩
  | cons t l =>
    obtain ⟨hhead, h0, hc⟩ := Chain.cons_iff.mp h.chain
    rw [hhead, if_pos h0]
    refine ⟨⟨?_, fun x hx => h.block x (List.mem_cons_of_mem _ hx),
      fun x hx => h.idle x (List.mem_cons_of_mem _ hx)⟩, rfl⟩
    change Chain k.next 0 (Function.update k.queueHead q (k.next t) q) l
    rwa [Function.update_self]

end Listed

namespace Pending

theorem nil (h0 : k.queueHead q = 0) : Pending P k q [] :=
  ⟨Chain.nil_iff.mpr h0, by simp, by simp⟩

section Effects

theorem listed (h : Pending P k q l) : Listed P k q l :=
  ⟨h.chain, h.block, fun t ht => (h.rest t ht).1⟩

theorem of_listed (h : Listed P k q l) (hr : ∀ t ∈ l, k.AtRest t) : Pending P k q l :=
  ⟨h.chain, h.block, hr⟩

theorem mem_iff (h : Pending P k q l) : t ∈ l ↔ k.InQueue q t := h.chain.mem_iff_meets

/-- Blocks at rest are not woken. -/
theorem passes (h : Pending P k q l) (he : Enabled P k f) (hf : f.Spares q l) : f.Passes q l := by
  cases f with
  | wake v x j => exact fun ht => (h.rest x ht).2.1 he.2.1
  | shift => trivial
  | _ => exact hf

/-- A step that spares the queue keeps its blocks at rest. -/
theorem atRest (h : Pending P k q l) (hs : Sound P k) (he : Enabled P k f)
    (hk : f.apply P k = some k') (hf : f.Spares q l) (ht : t ∈ l) : k'.AtRest t := by
  have hst := h.rest t ht
  refine ⟨h.listed.unqueued hs he hk (h.passes he hf) ht, ?_⟩
  rw [(Effect.spec hs he hk).state t (h.listed.live hs he hk (h.passes he hf) ht)]
  cases f with
  | ready x =>
    rw [Effect.stateOf, if_neg (ne_of_mem_of_not_mem ht hf)]
    exact hst.2
  | wake v x j =>
    rw [Effect.stateOf, if_neg (ne_of_mem_of_not_mem ht (h.passes he hf))]
    exact hst.2
  | dispatch x =>
    rw [Effect.stateOf]
    split_ifs
    · decide
    · exact hst.2
  | block x =>
    rw [Effect.stateOf]
    split_ifs
    · decide
    · exact hst.2
  | shift x y =>
    rw [Effect.stateOf]
    split_ifs with hx
    · subst hx
      rcases he.2 with ⟨hw, -⟩ | ⟨hw, -⟩ | ⟨-, rfl⟩ | ⟨-, rfl, -⟩
      · exact absurd hw hst.2.1
      · exact absurd hw hst.2.2
      · decide
      · exact absurd rfl (hf ht)
    · exact hst.2
  | unwait v x j =>
    rw [Effect.stateOf]
    split_ifs
    · decide
    · exact hst.2
  | _ => exact hst.2

/-- A step that spares the queue changes nothing in it. -/
theorem effect (h : Pending P k q l) (hs : Sound P k) (he : Enabled P k f)
    (hk : f.apply P k = some k') (hf : f.Spares q l) : Pending P k' q l :=
  of_listed (h.listed.effect hs he hk (h.passes he hf)) fun _ ht => h.atRest hs he hk hf ht

/-- Who is neither created nor reaped keeps what its report tells. -/
theorem data (hs : Sound P k) (he : Enabled P k f) (hk : f.apply P k = some k')
    (ht : k.Live t ∨ t = P.idleTcb) (hreap : f ≠ .reap t) :
    reportData (k'.tcb t) = reportData (k.tcb t) := by
  have hsp := Effect.spec hs he hk
  have hset : ∀ (b : Tcb) s, reportData { b with state := s } = reportData b := fun _ _ => rfl
  have hnext : ∀ (b : Tcb) n, reportData { b with next := n } = reportData b := fun _ _ => rfl
  have htap : ∀ (b : Tcb) v, reportData { b with tap := v } = reportData b := fun _ _ => rfl
  have hrax : ∀ (k₁ : Kernel) x w, reportData ((k₁.setRax x w).tcb t) = reportData (k₁.tcb t) :=
    fun k₁ x w => k₁.updTcb_proj x t _ reportData fun _ => rfl
  cases f with
  | wake vec x j =>
    obtain rfl := Option.some.inj hk
    exact (hrax ..).trans ((Effect.setState_proj hset ..).trans
      ((Effect.schedulerPushTcb_proj hnext ..).trans (Effect.fireTap_proj htap k x t j)))
  | unwait vec x j =>
    obtain rfl := Option.some.inj hk
    exact (hrax ..).trans ((Effect.setState_proj hset ..).trans
      (Effect.fireTap_proj htap k x t j))
  | regs x r iv sv er =>
    obtain rfl := Option.some.inj hk
    exact k.updTcb_proj x t _ reportData fun _ => rfl
  | create =>
    obtain ⟨i, x, hc⟩ := hsp.table
    rw [hc.step.tcb t]
    rintro rfl
    exact ht.elim hc.dead hc.ne_idle
  | reap x =>
    rw [hsp.table.step.tcb t]
    rintro rfl
    exact hreap rfl
  | _ => exact Effect.proj hs he hk trivial (fun _ _ => rfl) hset htap (fun _ _ => rfl) t

/-- A report is queued in front of the others. -/
theorem report (h : Pending P k q l) (he : k.Live t ∨ t = P.idleTcb) (hst : k.AtRest t)
    (ht : t ∉ l) : Pending P (enqueue k q t) q (t :: l) := by
  refine of_listed (h.listed.report he hst.1 ht) fun x hx => ?_
  rw [enqueue_eq]
  rcases List.mem_cons.mp hx with rfl | hx
  · exact hst
  · exact h.rest x hx

/-- The first report is the one that is fetched. -/
theorem fetch (h : Pending P k q l) :
    Pending P (getQueued k q).2 q l.tail ∧ (getQueued k q).1 = l.headD 0 := by
  refine ⟨of_listed h.listed.fetch.1 fun x hx => ?_, h.listed.fetch.2⟩
  have hrest := h.rest x (List.mem_of_mem_tail hx)
  unfold Kernel.AtRest Kernel.state at hrest ⊢
  rw [getQueued_tcb]
  exact hrest

/-- Steps that spare the queue leave it and what its reports tell. -/
theorem effects {A : Effect → Prop} (h : Pending P k q l) (hs : Sound P k)
    (hr : Effects P A k k') (hA : ∀ f, A f → f.Spares q l) :
    Pending P k' q l ∧ ∀ t ∈ l, reportData (k'.tcb t) = reportData (k.tcb t) := by
  refine hr.keep (I := fun a => Pending P a q l ∧
    ∀ t ∈ l, reportData (a.tcb t) = reportData (k.tcb t)) ⟨h, fun _ _ => rfl⟩ hs ?_
  intro a f b ha hsa he hf hb
  have hsp := hA f hf
  refine ⟨ha.1.effect hsa he hb hsp, fun t ht => ?_⟩
  refine (data hsa he hb (ha.1.block t ht) ?_).trans (ha.2 t ht)
  rintro rfl
  exact hsp ht

/-- Steps without a reap keep what a report tells of a block. -/
theorem data_effects {A : Effect → Prop} (hs : Sound P k) (hr : Effects P A k k')
    (hA : ∀ t, ¬ A (.reap t)) (ht : k.Live t ∨ t = P.idleTcb) :
    reportData (k'.tcb t) = reportData (k.tcb t) := by
  have hkeep := hr.keep (I := fun a => (a.Live t ∨ t = P.idleTcb) ∧
    reportData (a.tcb t) = reportData (k.tcb t)) ⟨ht, rfl⟩ hs ?_
  · exact hkeep.2
  intro a f b ha hsa he hf hb
  have hne : ∀ x, f ≠ .reap x := by
    rintro x rfl
    exact hA x hf
  exact ⟨ha.1.imp_left (Effect.live_mono hsa he hb hne),
    (data hsa he hb ha.1 (hne t)).trans ha.2⟩

end Effects

end Pending

section Events

/-- The events that report the active block in a queue. -/
def Event.Reports (q : TcbQueue) : Event → Prop
  | .interrupt v _ _ => faultQueue v = some q
  | .call c => c = .threadExit ∧ q = .zombie
  | _ => False

/-- The events that fetch from a queue. -/
def Event.Fetches (q : TcbQueue) : Event → Prop
  | .call c => c.Fetches q
  | _ => False

/-- A reported thread stays away until its report is fetched: it makes no call, no trap puts it
back on the run queue or reports it again, and nobody resumes or reaps it. -/
structure Undisturbed (q : TcbQueue) (s : Sys) (e : Event) : Prop where
  call : s.kernel.InQueue q s.active → ∀ c, e ≠ .call c
  trap : s.kernel.InQueue q s.active → ∀ v er cr2, e = .interrupt v er cr2 →
    v ≠ 32 ∧ faultQueue v = none
  yield : s.kernel.InQueue q s.active → e = .yield →
    s.yieldCode = 0 ∧ s.kernel.state s.active ≠ tcbStateRunning
  resume : ∀ th, e = .call (.threadResume th) → s.kernel.InQueue q (target s.kernel th) →
    s.kernel.state (target s.kernel th) ≠ tcbStateSuspended
  reap : ∀ th, e = .call (.threadReap th) → s.kernel.InQueue q (tcbGet s.kernel th) →
    s.kernel.state (tcbGet s.kernel th) ≠ tcbStateSuspended

theorem Installed.ne_yield {v : BitVec 32} (h : Installed v) : v ≠ 0x100 := by
  rintro rfl
  exact absurd h (by decide)

/-- What an interrupt does to the kernel. -/
theorem step_interrupt {v : BitVec 32} {er cr2 : Word}
    (hs : s.step P (.interrupt v er cr2) = some s') :
    Installed v ∧ ∃ er', s'.kernel = (fault P (saveState s.kernel s.cpu v er') s.active).1 := by
  obtain ⟨hv, x, er', rfl⟩ := Sys.interrupt_cases hs
  exact ⟨hv, er', enter_kernel ..⟩

/-- What a yield trap does to the kernel. -/
theorem step_yield (hs : s.step P .yield = some s') : ∃ cpu : Regs, cpu.rdi = s.yieldCode ∧
    s'.kernel = (fault P (saveState s.kernel cpu 0x100 0) s.active).1 := by
  rw [Sys.yieldCode]
  rcases Sys.yield_cases hs with ⟨hp, -, rfl⟩ | ⟨e, hp, rfl⟩
  · exact ⟨s.cpu, by rw [hp], enter_kernel ..⟩
  · exact ⟨{ s.cpu with rdi := e.yieldCode }, by rw [hp], enter_kernel ..⟩

/-- The steps of an undisturbed event that neither reports nor fetches spare the queue. -/
theorem Undisturbed.spares (hu : Undisturbed q s e) (h : Pending P s.kernel q l)
    (hrep : ¬ e.Reports q) (hfetch : ¬ e.Fetches q) (hreap : ∀ th, e ≠ .call (.threadReap th))
    (hst : s.step P e = some s') (hm : s.May e f) : f.Spares q l := by
  have htrap : ∀ {v : BitVec 32} {rdi : Word}, TrapMay s.kernel v rdi f →
      (s.kernel.InQueue q s.active → ¬ Requeues s.kernel v rdi ∧ faultQueue v = none) →
      faultQueue v ≠ some q → f.Spares q l := by
    intro v rdi hm ha hv
    cases f with
    | ready t =>
      intro ht
      obtain ⟨rfl, hr⟩ := hm
      exact (ha (h.mem_iff.mp ht)).1 hr
    | shift t st => exact hm.elim
    | report q' t =>
      obtain ⟨rfl, hq⟩ := hm
      refine ⟨fun hc => hv (hc ▸ hq), fun ht => ?_⟩
      rw [(ha (h.mem_iff.mp ht)).2] at hq
      cases hq
    | fetch q' => exact hm.elim
    | reap t => exact hm.elim
    | _ => trivial
  cases e with
  | run r => exact hm.elim
  | ret => exact hm.elim
  | interrupt v er cr2 =>
    refine htrap hm (fun ha => ?_) hrep
    obtain ⟨h32, hq⟩ := hu.trap ha v er cr2 rfl
    refine ⟨?_, hq⟩
    rintro (h' | ⟨rfl, -⟩)
    · exact h32 h'
    · exact (step_interrupt hst).1.ne_yield rfl
  | yield =>
    refine htrap hm (fun ha => ?_) (by simp [faultQueue])
    obtain ⟨h0, hr⟩ := hu.yield ha rfl
    refine ⟨?_, by decide⟩
    rintro (h' | ⟨-, h' | h'⟩)
    · exact absurd h' (by decide)
    · exact h' h0
    · exact hr h'
  | call c =>
    cases f with
    | ready t =>
      obtain ⟨th, rfl, rfl, hst⟩ := hm
      exact fun ht => hu.resume th rfl (h.mem_iff.mp ht) hst
    | shift t st =>
      rintro ht rfl
      rcases hm with ⟨th, -, rfl, ⟨-, hs⟩ | ⟨-, hs⟩⟩ | ⟨th, -, rfl, hs, -⟩ | ⟨-, -, hs⟩ |
        ⟨-, rfl, -⟩
      · exact absurd hs (by decide)
      · exact absurd hs (by decide)
      · exact (h.rest _ ht).2.2 hs
      · exact absurd hs (by decide)
      · exact hu.call (h.mem_iff.mp ht) c rfl
    | report q' t =>
      obtain ⟨rfl, rfl, rfl⟩ := hm
      exact ⟨fun hc => hrep ⟨rfl, hc.symm⟩, fun ht => hu.call (h.mem_iff.mp ht) _ rfl⟩
    | fetch q' =>
      rintro rfl
      exact hfetch hm
    | reap t =>
      obtain ⟨th, rfl, -⟩ := hm
      exact absurd rfl (hreap th)
    | _ => trivial

/-- What waits is not affected by an undisturbed event that neither reports nor fetches. -/
theorem Pending.step (h : Pending P s.kernel q l) (hs : SysSound P s) (hu : Undisturbed q s e)
    (hst : s.step P e = some s') (hrep : ¬ e.Reports q) (hfetch : ¬ e.Fetches q) :
    Pending P s'.kernel q l ∧
      ∀ t ∈ l, reportData (s'.kernel.tcb t) = reportData (s.kernel.tcb t) := by
  by_cases hreap : ∃ th, e = .call (.threadReap th)
  · obtain ⟨th, rfl⟩ := hreap
    obtain ⟨hcall, hk⟩ := step_reap hs hst
    by_cases htrue : (apilogicThreadReap s.kernel th).1 = true
    · obtain ⟨hen, happ⟩ := hcall.reap_eq htrue
      rw [← hk] at happ
      have hsp : (Effect.reap (tcbGet s.kernel th)).Spares q l :=
        fun ht => hu.reap th rfl (h.mem_iff.mp ht) hen.2.1
      refine h.effects (A := (Effect.Spares q l ·)) hs.sound (.single hen hsp happ) fun _ hf => hf
    · rw [hk, apilogicThreadReap_refused htrue]
      exact ⟨h, fun _ _ => rfl⟩
  · exact h.effects hs.sound (hs.step hst).2 fun f hf =>
      hu.spares h hrep hfetch (fun th he => hreap ⟨th, he⟩) hst hf

/-- A fault that is reported: the block is unloaded and queued, and the vector fires. -/
theorem fault_report {v : BitVec 32} (hv : (k.tcb k.activeTcb).ivect = v)
    (hq : faultQueue v = some q) : fault P k k.activeTcb =
      schedulerSchedule P
        (interruptVectorFire (enqueue (ccbUnloadTcb k).2 q k.activeTcb) q.vector) := by
  unfold faultQueue at hq
  rw [fault, hv]
  split_ifs at hq with h14 h8 hlt
  · obtain rfl := Option.some.inj hq
    subst h14
    simp only [ccbUnloadTcb_fst]
    rfl
  · obtain rfl := Option.some.inj hq
    have h32 : v ≠ 32 := by
      rintro rfl
      exact absurd hlt (by decide)
    have h100 : v ≠ 0x100 := by
      rintro rfl
      exact absurd hlt (by decide)
    simp only [if_neg h32, if_neg h100, if_neg h14, if_neg h8, if_pos hlt, ccbUnloadTcb_fst]
    rfl

/-- The other vectors come back to where they struck. -/
theorem fault_other {v : BitVec 32} (hv : (k.tcb k.activeTcb).ivect = v) (h32 : v ≠ 32)
    (h100 : v ≠ 0x100) (hq : faultQueue v = none) : (fault P k k.activeTcb).1 = k := by
  unfold faultQueue at hq
  rw [fault, hv]
  simp only [if_neg h32, if_neg h100]
  split_ifs at hq ⊢ <;> rfl

/-- A block that has been unloaded can be reported, and the vector can fire. -/
theorem notify_effects (hs : Sound P k) (h0 : k.activeTcb = 0)
    (hl : k.Live t ∨ t = P.idleTcb) (hq : k.state t ≠ tcbStateQueued) :
    Sound P (enqueue k q t) ∧ (enqueue k q t).activeTcb = 0 ∧
      Effects P (FireMay (enqueue k q t) q.vector) (enqueue k q t)
        (interruptVectorFire (enqueue k q t) q.vector) := by
  have hen : Enabled P k (.report q t) := ⟨hl, hq⟩
  obtain ⟨k', hk, hs'⟩ := hs.effect hen
  obtain rfl := Option.some.inj hk
  have ha : (enqueue k q t).activeTcb = 0 := (Effect.spec hs hen rfl).active.trans h0
  exact ⟨hs', ha, fire_effects hs' (vectorPage_vector q) (Or.inl ha)⟩

/-- The block that has been unloaded is reported, and the vector fires. -/
theorem Pending.notify (h : Pending P k q l) (hs : Sound P k) (h0 : k.activeTcb = 0)
    (hl : k.Live t ∨ t = P.idleTcb) (hw : k.AtRest t) (ht : t ∉ l) :
    Sound P (interruptVectorFire (enqueue k q t) q.vector) ∧
      (interruptVectorFire (enqueue k q t) q.vector).activeTcb = 0 ∧
      Pending P (interruptVectorFire (enqueue k q t) q.vector) q (t :: l) := by
  obtain ⟨hs', ha, hfire⟩ := notify_effects (q := q) hs h0 hl hw.1
  have hframe := (FireFrame.refl _).effects hs' hfire
  refine ⟨hs'.effects hfire, hframe.active.trans ha, ((h.report hl hw ht).effects hs' hfire ?_).1⟩
  intro f hf
  cases f with
  | flag => trivial
  | wake => trivial
  | unwait => trivial
  | _ => exact hf.elim

/-- Saving and unloading the active block. -/
def Unloads (a : Ptr) : Effect → Prop
  | .regs t .. => t = a
  | .unload => True
  | _ => False

/-- A fault that is reported saves and unloads the block it strikes, reports it, and schedules. -/
theorem step_fault (h : SysSound P s) {v : BitVec 32} {er cr2 : Word}
    (hst : s.step P (.interrupt v er cr2) = some s') (hq : faultQueue v = some q) :
    ∃ k₂, Effects P (Unloads s.active) s.kernel k₂ ∧ k₂.activeTcb = 0 ∧
      (∀ p, k₂.state p = s.kernel.state p) ∧ k₂.tableEntry = s.kernel.tableEntry ∧
      s'.kernel =
        (schedulerSchedule P (interruptVectorFire (enqueue k₂ q s.active) q.vector)).1 := by
  obtain ⟨-, er', hk⟩ := step_interrupt hst
  generalize hk₁ : saveState s.kernel s.cpu v er' = k₁ at hk
  have hactive : k₁.activeTcb = s.active := hk₁ ▸ rfl
  have hiv : (k₁.tcb k₁.activeTcb).ivect = v := by
    rw [← hk₁]
    exact congrArg Tcb.ivect (Kernel.updTcb_self ..)
  have hsave : Effects P (Unloads s.active) s.kernel k₁ :=
    .single (e := .regs s.active s.cpu v 0 er') trivial rfl (congrArg some hk₁)
  have hs₁ := h.sound.effects hsave
  refine ⟨(ccbUnloadTcb k₁).2, .tail hsave (e := .unload) ⟨trivial, trivial⟩ rfl,
    ccbUnloadTcb_active k₁, fun p => ?_, ?_, ?_⟩
  · rw [ccbUnloadTcb_state, ← hk₁, saveState_state]
  · exact (Effect.spec hs₁ (e := .unload) trivial rfl).table.trans (hk₁ ▸ rfl)
  · rw [hk, ← hactive, fault_report hiv hq]

/-- A fault puts the block it strikes in front of the others. -/
theorem Pending.fault (h : Pending P s.kernel q l) (hs : SysSound P s) {v : BitVec 32}
    {er cr2 : Word} (hst : s.step P (.interrupt v er cr2) = some s') (hq : faultQueue v = some q)
    (ht : s.active ∉ l) (hw : s.kernel.AtRest s.active) :
    Pending P s'.kernel q (s.active :: l) := by
  obtain ⟨k₂, he, h0, hstate, htable, hk⟩ := step_fault hs hst hq
  have hl : k₂.Live s.active ∨ s.active = P.idleTcb := by
    obtain ⟨run, free, hc⟩ := hs.sound
    rw [Kernel.Live, htable]
    exact (hc.active.resolve_left hs.active).1
  have hw₂ : k₂.AtRest s.active := by
    rw [Kernel.AtRest, hstate]
    exact hw
  have hp₂ : Pending P k₂ q l := by
    refine (h.effects hs.sound he fun f hf => ?_).1
    cases f with
    | regs => trivial
    | unload => trivial
    | _ => exact hf.elim
  obtain ⟨hs₃, ha₃, hp₃⟩ := hp₂.notify (hs.sound.effects he) h0 hl hw₂ ht
  rw [hk]
  refine (hp₃.effects hs₃ (schedule_effects hs₃).1 fun f hf => ?_).1
  cases f with
  | ready t => exact absurd (hf.1.trans ha₃) hf.2
  | unload => trivial
  | dispatch t => trivial
  | inject => trivial
  | _ => exact hf.elim

/-- An interrupt keeps what a report tells of a block. -/
theorem interrupt_data (hs : SysSound P s) {v : BitVec 32} {er cr2 : Word}
    (hst : s.step P (.interrupt v er cr2) = some s') (ht : s.kernel.Live t ∨ t = P.idleTcb) :
    reportData (s'.kernel.tcb t) = reportData (s.kernel.tcb t) :=
  Pending.data_effects hs.sound (hs.step hst).2 (fun _ hf => hf.elim) ht

end Events
end Pinion64
