import Pinion64.Reach

/-! References to threads that have been reaped. A reap looks at the state of the thread only, so
what the report queues and the routes hold of the thread they keep. -/
namespace Pinion64
open Intrusive Transition

namespace Kernel

/-- A report queue, followed through `next`, meets the block. -/
def Reported (k : Kernel) (t : Ptr) : Prop := ∃ q, Meets k.next 0 (k.queueHead q) t

/-- A tap slot of an installed vector page names the block. -/
def InRoute (k : Kernel) (t : Ptr) : Prop := ∃ vec, vectorPage vec < 128 ∧ k.Routed vec t

/-- The run queue or a report queue leads to the block. -/
def Held (k : Kernel) (t : Ptr) : Prop := Meets k.next 0 k.scheduleHead t ∨ k.Reported t

/-- The block is on the free list of tcb_alloc. -/
def Unused (k : Kernel) (t : Ptr) : Prop := Meets k.link 0 k.tcbList t

end Kernel

/-- No structure of the kernel refers to the block. -/
structure Unreferenced (k : Kernel) (t : Ptr) : Prop where
  table : ¬ k.Live t
  held : ¬ Meets k.next 0 k.scheduleHead t
  tail : k.scheduleTail ≠ t
  active : k.activeTcb ≠ t
  reported : ¬ k.Reported t
  routed : ¬ k.InRoute t

variable {P : Platform} {k k' : Kernel} {s s' : Sys} {e : Effect} {t p x : Ptr}

section Held

theorem held_of_closed {S : Ptr → Prop} (h : k.Held x)
    (hrun : k.scheduleHead ≠ 0 → S k.scheduleHead)
    (hq : ∀ q, k.queueHead q ≠ 0 → S (k.queueHead q))
    (hn : ∀ x, S x → k.next x ≠ 0 → S (k.next x)) : S x := by
  rcases h with h | ⟨q, h⟩
  · exact h.of_closed hrun hn
  · exact h.of_closed (hq q) hn

theorem Kernel.Held.next (h : k.Held x) (hn : k.next x ≠ 0) : k.Held (k.next x) := by
  rcases h with h | ⟨q, h⟩
  · exact Or.inl (h.trans (.here hn))
  · exact Or.inr ⟨q, h.trans (.here hn)⟩

theorem held_run (h : k.scheduleHead ≠ 0) : k.Held k.scheduleHead := Or.inl (.here h)

theorem held_queue {q : TcbQueue} (h : k.queueHead q ≠ 0) : k.Held (k.queueHead q) :=
  Or.inr ⟨q, .here h⟩

theorem held_congr (hn : k'.next = k.next) (hh : k'.scheduleHead = k.scheduleHead)
    (hq : k'.queueHead = k.queueHead) : k'.Held x ↔ k.Held x := by
  simp only [Kernel.Held, Kernel.Reported, hn, hh, hq]

/-- The run queue leads to queued blocks only. -/
theorem held_run_queued (h : Sound P k) (hx : Meets k.next 0 k.scheduleHead x) :
    (k.Live x ∨ x = P.idleTcb) ∧ k.state x = tcbStateQueued := by
  obtain ⟨run, free, h⟩ := h
  exact (h.queued x).mp (h.fifo.1.mem_of_meets hx)

theorem push_next (k : Kernel) (t x : Ptr) : (schedulerPushTcb k t).next x = 0 ∨
    (schedulerPushTcb k t).next x = t ∨ x ≠ t ∧ (schedulerPushTcb k t).next x = k.next x := by
  rw [schedulerPushTcb_eq, Kernel.relink_next]
  have hcut : Function.update k.next t 0 x = 0 ∨ x ≠ t ∧ Function.update k.next t 0 x = k.next x := by
    by_cases hx : x = t
    · subst hx
      exact Or.inl (Function.update_self ..)
    · exact Or.inr ⟨hx, Function.update_of_ne hx ..⟩
  split_ifs
  · by_cases hx : x = k.scheduleTail
    · subst hx
      exact Or.inr (Or.inl (Function.update_self ..))
    · rw [Function.update_of_ne hx]
      exact hcut.imp_right Or.inr
  · exact hcut.imp_right Or.inr

/-- A block at the end of the run queue is all that a push adds. -/
theorem held_push (hx : (schedulerPushTcb k t).Held x) : k.Held x ∨ x = t := by
  refine held_of_closed (S := fun x => k.Held x ∨ x = t) hx (fun h => ?_) (fun q h => ?_)
    (fun y hy h => ?_)
  · rw [schedulerPushTcb_eq, Kernel.relink_scheduleHead] at h ⊢
    split_ifs at h ⊢
    · exact Or.inl (held_run h)
    · exact Or.inr rfl
  · rw [schedulerPushTcb_eq] at h ⊢
    exact Or.inl (held_queue h)
  · rcases push_next k t y with hn | hn | ⟨hne, hn⟩
    · exact absurd hn h
    · exact Or.inr hn
    · rw [hn] at h ⊢
      exact Or.inl ((hy.resolve_right hne).next h)

/-- A report adds the reported block. -/
theorem held_enqueue {q : TcbQueue} (hx : (enqueue k q t).Held x) : k.Held x ∨ x = t := by
  rw [enqueue_eq] at hx
  refine held_of_closed (S := fun x => k.Held x ∨ x = t) hx (fun h => ?_) (fun q' h => ?_)
    (fun y hy h => ?_)
  · exact Or.inl (held_run h)
  · simp only at h ⊢
    by_cases hq : q' = q
    · subst hq
      exact Or.inr (Function.update_self ..)
    · rw [Function.update_of_ne hq] at h ⊢
      exact Or.inl (held_queue h)
  · change Function.update k.next t (k.queueHead q) y ≠ 0 at h
    change k.Held (Function.update k.next t (k.queueHead q) y) ∨ _
    by_cases hyt : y = t
    · subst hyt
      rw [Function.update_self] at h ⊢
      exact Or.inl (held_queue h)
    · rw [Function.update_of_ne hyt] at h ⊢
      exact Or.inl ((hy.resolve_right hyt).next h)

theorem held_relink {n : Ptr → Ptr} {hd tl : Ptr} (ht : k.Held t)
    (hhd : hd = k.scheduleHead ∨ hd = k.next t) (hn : ∀ p, n p = k.next p ∨ n p = k.next t)
    (hx : (k.relink n hd tl).Held x) : k.Held x := by
  refine held_of_closed (S := k.Held) hx (fun h => ?_) (fun q h => held_queue h) (fun y hy h => ?_)
  · rw [Kernel.relink_scheduleHead] at h ⊢
    rcases hhd with rfl | rfl
    · exact held_run h
    · exact ht.next h
  · rw [Kernel.relink_next] at h ⊢
    rcases hn y with he | he
    · rw [he] at h ⊢
      exact hy.next h
    · rw [he] at h ⊢
      exact ht.next h

theorem held_fetch {q : TcbQueue} (hx : (getQueued k q).2.Held x) : k.Held x := by
  simp only [getQueued] at hx
  split_ifs at hx with h0
  · refine held_of_closed (S := k.Held) hx (fun h => held_run h) (fun q' h => ?_)
      (fun y hy h => hy.next h)
    simp only at h ⊢
    by_cases hq : q' = q
    · subst hq
      rw [Function.update_self] at h ⊢
      exact (held_queue h0).next h
    · rw [Function.update_of_ne hq] at h ⊢
      exact held_queue h
  · exact hx

end Held

/-- The queues and the routes refer to live threads only, the queues also to the idle block. -/
structure Tidy (P : Platform) (k : Kernel) : Prop where
  held : ∀ x, k.Held x → k.Live x ∨ x = P.idleTcb
  routed : ∀ x, k.InRoute x → k.Live x

section Tidy

/-- A thread goes on to be one until it is reaped itself. -/
theorem Effect.live_of_ne (h : Sound P k) (he : Enabled P k e) (hk : e.apply P k = some k')
    (hr : e ≠ .reap p) (hp : k.Live p) : k'.Live p := by
  have ht := (Effect.spec h he hk).table
  have hsame : k'.tableEntry = k.tableEntry → k'.Live p := fun ht => by
    rw [Kernel.Live, ht]
    exact hp
  cases e with
  | create =>
    obtain ⟨i, t, hc⟩ := ht
    exact (hc.live p).mpr (Or.inl hp)
  | reap t =>
    refine (ht.live p).mpr ⟨hp, ?_⟩
    rintro rfl
    exact hr rfl
  | _ => exact hsame ht

theorem Effect.live_mono (h : Sound P k) (he : Enabled P k e) (hk : e.apply P k = some k')
    (hr : ∀ t, e ≠ .reap t) (hp : k.Live p) : k'.Live p :=
  live_of_ne h he hk (hr p) hp

theorem dispatch_links (he : Enabled P k (.dispatch t))
    (hk : Effect.apply P k (.dispatch t) = some k') :
    k'.next = k.next ∧ k'.scheduleHead = k.next t ∧ k'.queueHead = k.queueHead := by
  obtain ⟨ha, hne, rfl⟩ := he
  obtain ⟨pcx, pcxId, hload⟩ := ccbLoadTcb_eq
    (k := (schedulerPullTcb k).2.setState k.scheduleHead tcbStateRunning) k.scheduleHead
    ((schedulerPullTcb_active k).trans ha)
  obtain rfl := Option.some.inj hk
  rw [hload, schedulerPullTcb_relink, if_pos hne]
  exact ⟨Kernel.setState_next .., rfl, rfl⟩

/-- Whatever is done, except a reap, adds live threads and the idle block only. -/
theorem Tidy.effect (h : Tidy P k) (hs : Sound P k) (he : Enabled P k e)
    (hk : e.apply P k = some k') (hr : ∀ t, e ≠ .reap t) : Tidy P k' := by
  have hsp := Effect.spec hs he hk
  have hmono : ∀ {x}, k.Live x ∨ x = P.idleTcb → k'.Live x ∨ x = P.idleTcb := fun hx =>
    hx.imp_left (Effect.live_mono hs he hk hr)
  have hold : ∀ {x}, k.Held x → k'.Live x ∨ x = P.idleTcb := fun hx => hmono (h.held _ hx)
  refine ⟨fun x hx => ?_, ?_⟩
  · cases e with
    | ready t =>
      obtain rfl := Option.some.inj hk
      rcases held_push ((held_congr (Kernel.setState_next ..) rfl rfl).mp hx) with hx | rfl
      · exact hold hx
      · exact hmono he.1
    | wake v t j =>
      obtain rfl := Option.some.inj hk
      have hx' : (schedulerPushTcb (k.fireTap t j) t).Held x :=
        (held_congr ((Kernel.setRax_next ..).trans (Kernel.setState_next ..)) rfl rfl).mp hx
      rcases held_push hx' with hx | rfl
      · exact hold ((held_congr (fireTap_next k t j) rfl rfl).mp hx)
      · obtain ⟨run, free, hc⟩ := hs
        exact hmono (Or.inl (he.1.live hc (Or.inl he.2.1)))
    | dispatch t =>
      obtain ⟨hn, hhead, hq⟩ := dispatch_links he hk
      refine hold (held_of_closed (S := k.Held) hx (fun h => ?_) (fun q h => ?_) fun y hy h => ?_)
      · rw [hhead] at h ⊢
        obtain ⟨-, hne, rfl⟩ := he
        exact (held_run hne).next h
      · rw [hq] at h ⊢
        exact held_queue h
      · rw [hn] at h ⊢
        exact hy.next h
    | block t =>
      obtain ⟨n, hd, tl, hrem, hhd, hn⟩ := hs.rem he.1 he.2
      rw [Effect.apply, hrem] at hk
      obtain rfl := Option.some.inj hk
      have hx' : (k.relink n hd tl).Held x := (held_congr (Kernel.setState_next ..) rfl rfl).mp hx
      have ht : k.Held t := by
        obtain ⟨run, free, hc⟩ := hs
        exact Or.inl (hc.fifo.1.meets_of_mem ((hc.queued t).mpr ⟨Or.inl he.1, he.2⟩))
      exact hold (held_relink ht hhd (fun p => (hn p).imp id And.right) hx')
    | report q t =>
      obtain rfl := Option.some.inj hk
      rcases held_enqueue hx with hx | rfl
      · exact hold hx
      · exact hmono he.1
    | fetch q =>
      obtain rfl := Option.some.inj hk
      exact hold (held_fetch hx)
    | reap t => exact absurd rfl (hr t)
    | _ =>
      obtain ⟨h1, h2, -, h4⟩ := Effect.links_eq hs he hk id
      exact hold ((held_congr h1 h2 h4).mp hx)
  · rintro x ⟨vec, hv, hx⟩
    have hpages : k'.vectorPageTable = k.vectorPageTable → k'.Live x := by
      intro hp
      rw [Kernel.Routed, Kernel.routeOf, hp] at hx
      exact Effect.live_mono hs he hk hr (h.routed x ⟨vec, hv, hx⟩)
    cases e with
    | setSlot v i t =>
      obtain rfl := Option.some.inj hk
      by_cases hxt : x = t
      · subst hxt
        exact he.resolve_left hx.1
      · exact h.routed x ⟨vec, hv, routed_setRoute hx hxt⟩
    | _ => exact hpages hsp.pages

/-- A step writes to blocks of live threads and to the idle block only. -/
theorem Tidy.untouched (h : Tidy P k) (hs : Sound P k) (he : Enabled P k e)
    (hk : e.apply P k = some k') (hc : e ≠ .create) (hr : ∀ t, e ≠ .reap t)
    (hregs : ∀ t r iv sv er, e = .regs t r iv sv er → p ≠ t) (hp : ¬ k.Live p)
    (hi : p ≠ P.idleTcb) : k'.tcb p = k.tcb p := by
  have hne : ∀ {t}, k.Live t ∨ t = P.idleTcb → p ≠ t := by
    rintro t ht rfl
    rcases ht with ht | ht
    · exact hp ht
    · exact hi ht
  have hupd : ∀ (k₁ : Kernel) {t f}, k.Live t ∨ t = P.idleTcb → (k₁.updTcb t f).tcb p = k₁.tcb p :=
    fun k₁ {t f} ht => k₁.updTcb_of_ne t p f (hne ht)
  have hfired : ∀ {vec t j}, Fired k vec t j → k.Live t ∨ t = P.idleTcb :=
    fun hf => Or.inl (h.routed _ ⟨_, hf.1, hf.2.1⟩)
  have hpush : ∀ (k₁ : Kernel) t, k₁.next = k.next → k₁.scheduleTail = k.scheduleTail →
      k.Live t ∨ t = P.idleTcb → (schedulerPushTcb k₁ t).tcb p = k₁.tcb p := by
    intro k₁ t hn ht hl
    have htail : k.scheduleTail ≠ 0 → p ≠ k.scheduleTail := by
      intro h0
      obtain ⟨run, free, hc⟩ := hs
      exact hne (hc.mem_run (hc.fifo.tail_mem fun hnil => h0 (hc.fifo.tail_eq_null_iff.mpr hnil)))
    rw [schedulerPushTcb_eq, ht]
    apply Kernel.relink_tcb
    split_ifs with h0
    · rw [Function.update_of_ne (htail h0), Function.update_of_ne (hne hl)]
    · rw [Function.update_of_ne (hne hl)]
  cases e with
  | ready t =>
    obtain rfl := Option.some.inj hk
    exact (hupd _ he.1).trans (hpush k t rfl rfl he.1)
  | dispatch t =>
    obtain ⟨ha, h0, rfl⟩ := he
    obtain rfl := Option.some.inj hk
    rw [ccbLoadTcb_tcb]
    refine (hupd _ (h.held _ (held_run h0))).trans ?_
    rw [schedulerPullTcb_tcb]
  | inject =>
    obtain rfl := Option.some.inj hk
    rw [ccbLoadTcb_tcb]
  | unload =>
    obtain rfl := Option.some.inj hk
    unfold ccbUnloadTcb
    split_ifs with h0
    · rfl
    · obtain ⟨run, free, hc⟩ := hs
      exact hupd { k with activeTcb := 0 } (hc.active.resolve_left h0).1
  | block t =>
    obtain ⟨n, hd, tl, hrem, -, hn⟩ := hs.rem he.1 he.2
    rw [Effect.apply, hrem] at hk
    obtain rfl := Option.some.inj hk
    exact (hupd _ (Or.inl he.1)).trans
      (k.relink_tcb hd tl ((hn p).resolve_right fun hc => hne hc.1.1 rfl))
  | shift t s =>
    obtain rfl := Option.some.inj hk
    exact hupd k (Or.inl he.1)
  | report q t =>
    obtain rfl := Option.some.inj hk
    rw [enqueue_eq]
    exact k.relink_tcb k.scheduleHead k.scheduleTail (Function.update_of_ne (hne he.1) ..)
  | fetch q =>
    obtain rfl := Option.some.inj hk
    simp only [getQueued]
    split_ifs <;> rfl
  | flag vec t j =>
    obtain rfl := Option.some.inj hk
    exact hupd k (hfired he.1)
  | wake vec t j =>
    obtain rfl := Option.some.inj hk
    exact (hupd _ (hfired he.1)).trans ((hupd _ (hfired he.1)).trans
      ((hpush _ t (fireTap_next k t j) rfl (hfired he.1)).trans (hupd k (hfired he.1))))
  | unwait vec t j =>
    obtain rfl := Option.some.inj hk
    exact (hupd _ (hfired he.1)).trans ((hupd _ (hfired he.1)).trans (hupd k (hfired he.1)))
  | setTap t i v =>
    obtain rfl := Option.some.inj hk
    exact hupd k (Or.inl he.1)
  | setSlot vec i t =>
    obtain rfl := Option.some.inj hk
    rfl
  | create => exact absurd rfl hc
  | reap t => exact absurd rfl (hr t)
  | regs t r iv sv er =>
    obtain rfl := Option.some.inj hk
    exact k.updTcb_of_ne t p _ (hregs t r iv sv er rfl)
  | paging q =>
    obtain rfl := Option.some.inj hk
    rfl

end Tidy

section Call

/-- Where a reap is accepted it is the elementary step. -/
theorem Caller.reap_eq (h : Caller P k) {th : BitVec 32}
    (hr : (apilogicThreadReap k th).1 = true) :
    Enabled P k (.reap (tcbGet k th)) ∧
      Effect.apply P k (.reap (tcbGet k th)) = some (apilogicThreadReap k th).2 := by
  unfold apilogicThreadReap at hr ⊢
  dsimp only at hr ⊢
  split_ifs at hr ⊢ with h0 hs
  have hst : k.state (tcbGet k th) = tcbStateSuspended := not_not.mp hs
  refine ⟨⟨Coherent.get_live h0, hst, fun ha => ?_⟩, rfl⟩
  have hrun := h.running
  rw [ha] at hrun
  exact absurd (hst.symm.trans hrun) (by decide)

/-- A refused reap changes nothing. -/
theorem apilogicThreadReap_refused {th : BitVec 32} (hr : ¬ (apilogicThreadReap k th).1 = true) :
    (apilogicThreadReap k th).2 = k := by
  unfold apilogicThreadReap at hr ⊢
  dsimp only at hr ⊢
  split_ifs at hr ⊢
  · rfl
  · rfl
  · exact absurd rfl hr

/-- A reap takes the thread from the table and leaves the queues and the routes as they are. -/
theorem unreferenced_reap (hs : Sound P k) (he : Enabled P k (.reap t))
    (hk : Effect.apply P k (.reap t) = some k') :
    Unreferenced k' t ↔ ¬ k.Reported t ∧ ¬ k.InRoute t := by
  have hr := (Effect.spec hs he hk).table
  obtain ⟨hn, hh, ht, hq⟩ := Effect.links_eq hs he hk id
  have hrep : k'.Reported t ↔ k.Reported t := by
    simp only [Kernel.Reported, hn, hq]
  have hroute : k'.InRoute t ↔ k.InRoute t := by
    simp only [Kernel.InRoute, Kernel.Routed, Kernel.routeOf, hr.step.vectorPageTable]
  constructor
  · intro hu
    exact ⟨fun hc => hu.reported (hrep.mpr hc), fun hc => hu.routed (hroute.mpr hc)⟩
  · rintro ⟨h1, h2⟩
    have hrun : ¬ Meets k.next 0 k.scheduleHead t := fun hm =>
      absurd ((held_run_queued hs hm).2.symm.trans he.2.1) (by decide)
    refine ⟨fun hl => ((hr.live t).mp hl).2 rfl, by rwa [hn, hh], fun hc => ?_, ?_,
      fun hc => h1 (hrep.mp hc), fun hc => h2 (hroute.mp hc)⟩
    · obtain ⟨run, free, hcoh⟩ := hs
      rw [ht] at hc
      have hne : run ≠ [] := fun hnil =>
        he.1.1 (hc.symm.trans (hcoh.fifo.tail_eq_null_iff.mpr hnil))
      exact hrun (hcoh.fifo.1.meets_of_mem (hc ▸ hcoh.fifo.tail_mem hne))
    · rw [hr.step.activeTcb]
      exact he.2.2

end Call

section Run

/-- Only threads without an unfetched report and without a place in a route are reaped. -/
def ReapSafe (s : Sys) (e : Event) : Prop :=
  ∀ th, e = .call (.threadReap th) → s.kernel.state (tcbGet s.kernel th) = tcbStateSuspended →
    ¬ s.kernel.Reported (tcbGet s.kernel th) ∧ ¬ s.kernel.InRoute (tcbGet s.kernel th)

theorem step_reap (h : SysSound P s) {th : BitVec 32}
    (hs : s.step P (.call (.threadReap th)) = some s') :
    Caller P s.kernel ∧ s'.kernel = (apilogicThreadReap s.kernel th).2 := by
  obtain ⟨hcall, -, r, hb⟩ := h.step_call hs
  exact ⟨hcall, (congrArg Prod.snd (Option.some.inj hb)).symm⟩

theorem Tidy.step (ht : Tidy P s.kernel) (h : SysSound P s) {e : Event} (hok : ReapSafe s e)
    (hs : s.step P e = some s') : Tidy P s'.kernel := by
  by_cases hr : ∃ th, e = .call (.threadReap th)
  · obtain ⟨th, rfl⟩ := hr
    obtain ⟨hcall, hk⟩ := step_reap h hs
    by_cases htrue : (apilogicThreadReap s.kernel th).1 = true
    · obtain ⟨hen, happ⟩ := hcall.reap_eq htrue
      rw [← hk] at happ
      obtain ⟨h1, h2⟩ := hok th rfl hen.2.1
      have hlive := (Effect.spec h.sound hen happ).table
      obtain ⟨hn, hh, -, hq⟩ := Effect.links_eq h.sound hen happ id
      refine ⟨fun x hx => ?_, fun x hx => ?_⟩
      · rw [held_congr hn hh hq] at hx
        refine (ht.held x hx).imp_left fun hl => (hlive.live x).mpr ⟨hl, ?_⟩
        rintro rfl
        rcases hx with hx | hx
        · exact absurd ((held_run_queued h.sound hx).2.symm.trans hen.2.1) (by decide)
        · exact h1 hx
      · have hx' : s.kernel.InRoute x := by
          simpa only [Kernel.InRoute, Kernel.Routed, Kernel.routeOf, hlive.step.vectorPageTable]
            using hx
        refine (hlive.live x).mpr ⟨ht.routed x hx', ?_⟩
        rintro rfl
        exact h2 hx'
    · rw [hk, apilogicThreadReap_refused htrue]
      exact ht
  · refine (h.step hs).2.keep ht h.sound fun a f b ha hsa hen hm hb => ha.effect hsa hen hb ?_
    rintro t rfl
    obtain ⟨th, he, -⟩ := hm.reap
    exact hr ⟨th, he⟩

/-- A block on the free list is neither a thread nor the idle block. -/
theorem Kernel.Unused.dead (h : Sound P k) (hp : k.Unused p) :
    ¬ k.Live p ∧ p ≠ P.idleTcb ∧ p ≠ 0 := by
  obtain ⟨run, free, hc⟩ := h
  have hm := hc.chain.mem_of_meets hp
  exact ⟨hc.dead p hm, hc.free_ne_idle hm, hc.free_ne_zero hm⟩

theorem Tidy.unreferenced (ht : Tidy P k) (h : Sound P k) (ha : k.activeTcb ≠ 0)
    (hp : k.Unused p) : Unreferenced k p := by
  obtain ⟨hl, hi, h0⟩ := hp.dead h
  have hheld : ¬ k.Held p := fun hc => (ht.held p hc).elim hl hi
  refine ⟨hl, fun hc => hheld (Or.inl hc), ?_, ?_, fun hc => hheld (Or.inr hc),
    fun hc => hl (ht.routed p hc)⟩
  · rintro rfl
    obtain ⟨run, free, hc⟩ := h
    have hne : run ≠ [] := fun hnil => h0 (hc.fifo.tail_eq_null_iff.mpr hnil)
    exact hheld (Or.inl (hc.fifo.1.meets_of_mem (hc.fifo.tail_mem hne)))
  · rintro rfl
    obtain ⟨run, free, hc⟩ := h
    exact (hc.active.resolve_left ha).1.elim hl hi

/-- No event writes to a block on the free list, but for the creation that takes it. -/
theorem Tidy.untouched_step (ht : Tidy P s.kernel) (h : SysSound P s) {e : Event}
    (hs : s.step P e = some s') (hp : s.kernel.Unused p) :
    s'.kernel.tcb p = s.kernel.tcb p ∨
      e = .call .threadCreate ∧ p = (tcbAlloc P.pages s.kernel).1 := by
  obtain ⟨hl, hi, h0⟩ := hp.dead h.sound
  by_cases hr : ∃ th, e = .call (.threadReap th)
  · obtain ⟨th, rfl⟩ := hr
    obtain ⟨hcall, hk⟩ := step_reap h hs
    left
    by_cases htrue : (apilogicThreadReap s.kernel th).1 = true
    · obtain ⟨hen, happ⟩ := hcall.reap_eq htrue
      rw [← hk] at happ
      refine (Effect.spec h.sound hen happ).table.step.tcb p ?_
      rintro rfl
      exact hl hen.1
    · rw [hk, apilogicThreadReap_refused htrue]
  by_cases hc : e = .call .threadCreate
  · subst hc
    obtain ⟨hcall, -, r, hb⟩ := h.step_call hs
    have hk : (apilogicThreadCreate P.pages s.kernel).2 = s'.kernel :=
      congrArg Prod.snd (Option.some.inj hb)
    obtain ⟨run, free, hcoh⟩ := h.sound
    obtain ⟨t, -, -, hcr⟩ := hcoh.create
    rw [hk] at hcr
    by_cases hpt : p = t
    · exact Or.inr ⟨rfl, hpt.trans hcr.alloc⟩
    · exact Or.inl (hcr.step.tcb p hpt)
  left
  have hkeep := (h.step hs).2.keep (I := fun k => Tidy P k ∧ k.tableEntry = s.kernel.tableEntry ∧
    k.tcb p = s.kernel.tcb p) ⟨ht, rfl, rfl⟩ h.sound ?_
  · exact hkeep.2.2
  rintro a f b ⟨ha, htab, hsame⟩ hsa hen hm hb
  have hnr : ∀ t, f ≠ .reap t := by
    rintro t rfl
    obtain ⟨th, he, -⟩ := hm.reap
    exact hr ⟨th, he⟩
  have hnc : f ≠ .create := by
    rintro rfl
    exact hc hm.create
  have hregs : ∀ t r iv sv er, f = .regs t r iv sv er → p ≠ t := by
    rintro t r iv sv er rfl rfl
    rcases hm.regs with hact | ⟨th, cls, st, b, -, hget, -⟩
    · obtain ⟨run, free, hcoh⟩ := h.sound
      rw [hact] at hl hi
      exact (hcoh.active.resolve_left h.active).1.elim hl hi
    · rw [hget] at hl h0
      exact hl (Coherent.get_live h0)
  have hla : ¬ a.Live p := by
    rw [Kernel.Live, htab]
    exact hl
  have htab' : b.tableEntry = a.tableEntry := by
    have hsp := (Effect.spec hsa hen hb).table
    cases f with
    | create => exact absurd rfl hnc
    | reap t => exact absurd rfl (hnr t)
    | _ => exact hsp
  exact ⟨ha.effect hsa hen hb hnr, htab'.trans htab,
    (ha.untouched hsa hen hb hnc hnr hregs hla hi).trans hsame⟩

theorem Booted.tidy (h : Booted P k) : Tidy P k := by
  obtain ⟨run, free, hc⟩ := h.sound
  refine ⟨fun x hx => ?_, ?_⟩
  · rcases hx with hx | ⟨q, hx⟩
    · exact ((hc.queued x).mp (hc.fifo.1.mem_of_meets hx)).1
    · rw [h.heads] at hx
      exact hx.not_null.elim
  · rintro x ⟨vec, hv, h0, r, hr, i, rfl⟩
    exact absurd (h.routes vec hv r hr i) h0

/-- Reaping leaves no reference behind, and nothing but a creation touches unused blocks. -/
structure NoDangling (b : Boot P) (ok : Sys → Event → Prop) : Prop where
  reaped : ∀ s, Run (Sys.step P) ok b.sys s → ∀ th s', ok s (.call (.threadReap th)) →
    s.step P (.call (.threadReap th)) = some s' → (apilogicThreadReap s.kernel th).1 = true →
    Unreferenced s'.kernel (tcbGet s.kernel th)
  unused : ∀ s, Run (Sys.step P) ok b.sys s → ∀ p, s.kernel.Unused p → Unreferenced s.kernel p
  untouched : ∀ s, Run (Sys.step P) ok b.sys s → ∀ e s', s.step P e = some s' →
    ∀ p, s.kernel.Unused p → s'.kernel.tcb p = s.kernel.tcb p ∨
      e = .call .threadCreate ∧ p = (tcbAlloc P.pages s.kernel).1

/-- The thread is unreferenced after its reap exactly if no report queue and no route held it
before; as long as only such threads are reaped, nothing ever refers to an unused block. -/
theorem no_dangling_reference (b : Boot P) :
    (∀ s, Reach b s → ∀ th s', s.step P (.call (.threadReap th)) = some s' →
      (apilogicThreadReap s.kernel th).1 = true →
      (Unreferenced s'.kernel (tcbGet s.kernel th) ↔ ¬ s.kernel.Reported (tcbGet s.kernel th) ∧
        ¬ s.kernel.InRoute (tcbGet s.kernel th))) ∧
    NoDangling b ReapSafe := by
  have hexact : ∀ s, SysSound P s → ∀ th s', s.step P (.call (.threadReap th)) = some s' →
      (apilogicThreadReap s.kernel th).1 = true →
      s.kernel.state (tcbGet s.kernel th) = tcbStateSuspended ∧
      (Unreferenced s'.kernel (tcbGet s.kernel th) ↔ ¬ s.kernel.Reported (tcbGet s.kernel th) ∧
        ¬ s.kernel.InRoute (tcbGet s.kernel th)) := by
    intro s h th s' hs htrue
    obtain ⟨hcall, hk⟩ := step_reap h hs
    obtain ⟨hen, happ⟩ := hcall.reap_eq htrue
    rw [← hk] at happ
    exact ⟨hen.2.1, unreferenced_reap h.sound hen happ⟩
  have hinv : ∀ s, Run (Sys.step P) ReapSafe b.sys s → SysSound P s ∧ Tidy P s.kernel := by
    intro s hr
    exact hr.invariant (I := fun s => SysSound P s ∧ Tidy P s.kernel)
      ⟨b.sys_sound, b.init_booted.tidy⟩
      fun a e c ha hok hs => ⟨(ha.1.step hs).1, ha.2.step ha.1 hok hs⟩
  refine ⟨fun s hr th s' hs htrue => (hexact s hr.sound th s' hs htrue).2, ?_⟩
  constructor
  · intro s hr th s' hok hs htrue
    obtain ⟨hst, hiff⟩ := hexact s (hinv s hr).1 th s' hs htrue
    exact hiff.mpr (hok th rfl hst)
  · intro s hr p hp
    obtain ⟨h, ht⟩ := hinv s hr
    exact ht.unreferenced h.sound h.active hp
  · intro s hr e s' hs p hp
    obtain ⟨h, ht⟩ := hinv s hr
    exact ht.untouched_step h hs hp

/-- Thread 2 exits and is reaped before its exit is fetched: the zombie queue keeps it. -/
theorem reap_leaves_zombie : ¬ ∀ (P : Platform) (b : Boot P), NoDangling b Free := by
  intro h
  obtain ⟨s, hr, hs⟩ := Run.exists_of_exec (Sys.step lowPlatform) lowBoot.sys
    [.call .threadCreate, .yield, .ret, .call (.threadResume 2), .yield, .call .threadExit, .yield,
      .ret]
    (fun s => (apilogicThreadReap s.kernel 2).1 &&
      (s.step lowPlatform (.call (.threadReap 2))).any fun s' =>
        s'.kernel.queueHead .zombie = tcbGet s.kernel 2 ∧ tcbGet s.kernel 2 ≠ 0)
    (by decide +kernel)
  rw [Bool.and_eq_true, Option.any_eq_true] at hs
  obtain ⟨htrue, s', hs', hd⟩ := hs
  obtain ⟨hz, h0⟩ := of_decide_eq_true hd
  refine ((h lowPlatform lowBoot).reaped s hr 2 s' trivial hs' htrue).reported ⟨.zombie, ?_⟩
  rw [hz]
  exact .here h0

end Run
end Pinion64
