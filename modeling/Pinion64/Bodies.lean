import Pinion64.EffectFrame
import Pinion64.System

/-! Every API body and every handler is a sequence of elementary steps; which steps it may take
is told by the state it starts from. -/
namespace Pinion64
open Intrusive Transition

def TcbQueue.vector : TcbQueue → BitVec 16
  | pagefault => pinionInterruptPagefault
  | miscfault => pinionInterruptMiscfault
  | zombie => pinionInterruptZombie

/-- The vector pages that init installs, whatever their routes are. -/
structure Vectors (k : Kernel) : Prop where
  pinion : ∃ r, k.vectorPageTable 1 = ⟨some r, some ⟨some .pinion, none⟩⟩
  irq : ∃ r, k.vectorPageTable 2 = ⟨some r, some ⟨some .irq, some .irq⟩⟩
  other : ∀ i < 128, i ≠ 1 → i ≠ 2 → k.vectorPageTable i = ⟨none, none⟩

variable {P : Platform} {k k' : Kernel} {e : Effect} {A : Effect → Prop}

section Vectors

theorem setRoute_page (k : Kernel) (vec : BitVec 16) (i : Fin 4) (t : Ptr) (j : ℕ) :
    ∃ g, (k.setRoute vec i t).vectorPageTable j =
      ⟨(k.vectorPageTable j).route.map g, (k.vectorPageTable j).vtable⟩ := by
  by_cases hj : j = vectorPage vec
  · subst hj
    exact ⟨_, Function.update_self ..⟩
  · refine ⟨id, ?_⟩
    rw [Option.map_id]
    exact Function.update_of_ne hj ..

theorem Vectors.setRoute (h : Vectors k) (vec : BitVec 16) (i : Fin 4) (t : Ptr) :
    Vectors (k.setRoute vec i t) := by
  obtain ⟨⟨r, hr⟩, ⟨s, hs⟩, ho⟩ := h
  refine ⟨?_, ?_, fun j hj h1 h2 => ?_⟩
  · obtain ⟨g, hg⟩ := setRoute_page k vec i t 1
    exact ⟨g r, by rw [hg, hr]; rfl⟩
  · obtain ⟨g, hg⟩ := setRoute_page k vec i t 2
    exact ⟨g s, by rw [hg, hs]; rfl⟩
  · obtain ⟨g, hg⟩ := setRoute_page k vec i t j
    rw [hg, ho j hj h1 h2]
    rfl

theorem Vectors.congr (h : Vectors k) (hp : k'.vectorPageTable = k.vectorPageTable) :
    Vectors k' := by
  obtain ⟨h1, h2, h3⟩ := h
  exact ⟨by rwa [hp], by rwa [hp], by rwa [hp]⟩

theorem Vectors.effect (h : Vectors k) (hs : Sound P k) (he : Enabled P k e)
    (hk : e.apply P k = some k') : Vectors k' := by
  have hp := (Effect.spec hs he hk).pages
  cases e with
  | setSlot vec i t => exact (h.setRoute vec i t).congr hp
  | _ => exact h.congr hp

theorem Vectors.effects (h : Vectors k) (hs : Sound P k) (hr : Effects P A k k') : Vectors k' :=
  hr.keep h hs fun _ _ _ hv hs he _ hk => hv.effect hs he hk

end Vectors

section Fire

theorem tapOf_congr {a b : Tcb} (h : a.tap = b.tap) (vec : BitVec 16) :
    a.tapOf vec = b.tapOf vec := by
  rw [Tcb.tapOf, Tcb.tapOf, h]

theorem tapOf_fireTap (b : Tcb) (j : Fin 4) (vec : BitVec 16) :
    (b.fireTap j).tapOf vec = b.tapOf vec := by
  have hlow : ∀ i, (b.fireTap j).tap i &&& 0x3FFF = b.tap i &&& 0x3FFF := by
    intro i
    simp only [Tcb.fireTap]
    by_cases hi : i = j
    · subst hi
      rw [Function.update_self, BitVec.and_comm, BitVec.and_or_distrib_left,
        BitVec.and_comm _ (b.tap i), show (0x3FFF : BitVec 16) &&& 0x8000 = 0#16 by decide]
      simp
    · rw [Function.update_of_ne hi]
  simp only [Tcb.tapOf, hlow]

/-- What stays as it was while a vector fires. -/
structure FireFrame (k k' : Kernel) : Prop where
  pages : k'.vectorPageTable = k.vectorPageTable
  active : k'.activeTcb = k.activeTcb
  heads : k'.queueHead = k.queueHead
  tapOf : ∀ p vec, (k'.tcb p).tapOf vec = (k.tcb p).tapOf vec
  waits : ∀ p, k'.state p = tcbStateWaiting ∨ k'.state p = tcbStateSuspendedWaiting →
    k'.state p = k.state p
  live : ∀ p, k'.Live p ↔ k.Live p

theorem FireFrame.refl (k : Kernel) : FireFrame k k :=
  ⟨rfl, rfl, rfl, fun _ _ => rfl, fun _ _ => rfl, fun _ => Iff.rfl⟩

theorem FireFrame.routed {k₁ : Kernel} (h : FireFrame k k₁) (vec : BitVec 16) (t : Ptr) :
    k₁.Routed vec t ↔ k.Routed vec t := by
  rw [Kernel.Routed, Kernel.Routed, Kernel.routeOf, Kernel.routeOf, h.pages]

theorem FireFrame.fired {k₁ : Kernel} (h : FireFrame k k₁) (vec : BitVec 16) (t : Ptr)
    (j : Fin 4) : Fired k₁ vec t j ↔ Fired k vec t j := by
  rw [Fired, Fired, h.routed, h.tapOf]

/-- The steps of a firing vector, told from the state in which it fires. -/
def FireMay (k : Kernel) (vec : BitVec 16) : Effect → Prop
  | .flag v t j => v = vec ∧ Fired k vec t j
  | .wake v t j => v = vec ∧ Fired k vec t j ∧ k.state t = tcbStateWaiting
  | .unwait v t j => v = vec ∧ Fired k vec t j ∧ k.state t = tcbStateSuspendedWaiting
  | _ => False

/-- A step of a firing vector keeps the frame. -/
theorem FireFrame.effect {k₁ k₂ : Kernel} {vec : BitVec 16} (h : FireFrame k k₁)
    (hs : Sound P k₁) (he : Enabled P k₁ e) (hm : FireMay k vec e)
    (hk : e.apply P k₁ = some k₂) : FireFrame k k₂ := by
  have hspec := Effect.spec hs he hk
  have htap : ∀ (t p : Ptr) (j : Fin 4) v, ((k₁.fireTap t j).tcb p).tapOf v =
      (k₁.tcb p).tapOf v := by
    intro t p j v
    rw [Kernel.fireTap, Kernel.updTcb_tcb]
    split_ifs with hp
    · rw [tapOf_fireTap, hp]
    · rfl
  have hlive : k₂.tableEntry = k₁.tableEntry → ∀ p, k₂.Live p ↔ k.Live p := by
    intro ht p
    rw [← h.live]
    simp only [Kernel.Live, ht]
  have hstate : ∀ p, k₂.state p = tcbStateWaiting ∨ k₂.state p = tcbStateSuspendedWaiting →
      k₂.state p = k₁.state p := by
    intro p hp
    cases e with
    | flag v t j =>
      obtain rfl := Option.some.inj hk
      exact fireTap_state ..
    | wake v t j =>
      obtain rfl := Option.some.inj hk
      simp only [Kernel.setRax_state, Kernel.setState_state, schedulerPushTcb_state,
        fireTap_state] at hp ⊢
      split_ifs at hp ⊢
      · rcases hp with hp | hp <;> exact absurd hp (by decide)
      · rfl
    | unwait v t j =>
      obtain rfl := Option.some.inj hk
      simp only [Kernel.setRax_state, Kernel.setState_state, fireTap_state] at hp ⊢
      split_ifs at hp ⊢
      · rcases hp with hp | hp <;> exact absurd hp (by decide)
      · rfl
    | _ => exact hm.elim
  have hwait : ∀ p, k₂.state p = tcbStateWaiting ∨ k₂.state p = tcbStateSuspendedWaiting →
      k₂.state p = k.state p := by
    intro p hp
    have h1 := hstate p hp
    rw [h1] at hp ⊢
    exact h.waits p hp
  cases e with
  | flag v t j =>
    exact ⟨hspec.pages.trans h.pages, hspec.active.trans h.active, hspec.heads.trans h.heads,
      fun p v => ((tapOf_congr (hspec.tap p) v).trans (htap t p j v)).trans (h.tapOf p v), hwait,
      hlive hspec.table⟩
  | wake v t j =>
    exact ⟨hspec.pages.trans h.pages, hspec.active.trans h.active, hspec.heads.trans h.heads,
      fun p v => ((tapOf_congr (hspec.tap p) v).trans (htap t p j v)).trans (h.tapOf p v), hwait,
      hlive hspec.table⟩
  | unwait v t j =>
    exact ⟨hspec.pages.trans h.pages, hspec.active.trans h.active, hspec.heads.trans h.heads,
      fun p v => ((tapOf_congr (hspec.tap p) v).trans (htap t p j v)).trans (h.tapOf p v), hwait,
      hlive hspec.table⟩
  | _ => exact hm.elim

theorem FireFrame.effects {k₁ k₂ : Kernel} {vec : BitVec 16} (h : FireFrame k k₁)
    (hs : Sound P k₁) (hr : Effects P (FireMay k vec) k₁ k₂) : FireFrame k k₂ :=
  hr.keep h hs fun _ _ _ hf hs he hm hk => hf.effect hs he hm hk

/-- The notification of one tap is at most one step. -/
theorem notifyTap_effects {k₁ : Kernel} {vec : BitVec 16} {t : Ptr} (h : FireFrame k k₁)
    (hv : vectorPage vec < 128) (ht : t = 0 ∨ k.Routed vec t)
    (ha : k.activeTcb = 0 ∨ k.state k.activeTcb ≠ tcbStateWaiting) :
    Effects P (FireMay k vec) k₁ (notifyTap vec k₁ t) := by
  unfold notifyTap
  split_ifs with h0
  · exact .refl
  · have hroute := ht.resolve_left h0
    cases hj : (k₁.tcb t).tapOf vec with
    | none => exact .refl
    | some j =>
      have hf : Fired k₁ vec t j := ⟨hv, (h.routed vec t).mpr hroute, hj⟩
      have hf' := (h.fired vec t j).mp hf
      have hst : ((k₁.fireTap t j).tcb t).state = k₁.state t := fireTap_state k₁ t t j
      simp only
      change Effects P _ k₁ (if ((k₁.fireTap t j).tcb t).state = tcbStateWaiting then _
        else if ((k₁.fireTap t j).tcb t).state = tcbStateSuspendedWaiting then _ else _)
      rw [hst]
      split_ifs with hw hsw
      · refine .single (e := .wake vec t j) ⟨hf, hw, ?_⟩ ⟨rfl, hf', ?_⟩ rfl
        · rw [h.active]
          rintro rfl
          rcases ha with ha | ha
          · exact h0 ha
          · exact ha ((h.waits _ (Or.inl hw)).symm.trans hw)
        · exact (h.waits t (Or.inl hw)).symm.trans hw
      · exact .single (e := .unwait vec t j) ⟨hf, hsw⟩
          ⟨rfl, hf', (h.waits t (Or.inr hsw)).symm.trans hsw⟩ rfl
      · exact .single (e := .flag vec t j) ⟨hf, hw, hsw⟩ ⟨rfl, hf'⟩ rfl

theorem interruptVectorFire_eq (k : Kernel) (vec : BitVec 16) :
    interruptVectorFire k vec = match k.routeOf vec with
      | none => k
      | some r => slots.foldl (fun k i => notifyTap vec k (r i)) k := by
  unfold interruptVectorFire Kernel.routeOf
  generalize k.vectorPageTable (vectorPage vec) = page
  obtain ⟨route, vtable⟩ := page
  cases route with
  | none => rfl
  | some r =>
    cases h : vtable.bind Vtable.onFire with
    | none => simp only [h, Option.map_some]
    | some f =>
      cases f with
      | irq => simp only [h, Option.map_some, OnFire.run, irqOnFire]

/-- A vector that fires notifies the taps of its route one after the other. -/
theorem fire_effects {vec : BitVec 16} (hs : Sound P k) (hv : vectorPage vec < 128)
    (ha : k.activeTcb = 0 ∨ k.state k.activeTcb ≠ tcbStateWaiting) :
    Effects P (FireMay k vec) k (interruptVectorFire k vec) := by
  rw [interruptVectorFire_eq]
  cases hr : k.routeOf vec with
  | none => exact .refl
  | some r =>
    have hroute : ∀ i, r i = 0 ∨ k.Routed vec (r i) := by
      intro i
      by_cases h0 : r i = 0
      · exact Or.inl h0
      · exact Or.inr ⟨h0, r, hr, i, rfl⟩
    have hfold : ∀ (l : List (Fin 4)) k₁, Effects P (FireMay k vec) k k₁ →
        Effects P (FireMay k vec) k (l.foldl (fun k i => notifyTap vec k (r i)) k₁) := by
      intro l
      induction l with
      | nil => exact fun _ h => h
      | cons i l ih =>
        intro k₁ h
        exact ih _ (h.trans (notifyTap_effects ((FireFrame.refl k).effects hs h) hv
          (hroute i) ha))
    exact hfold slots k .refl

end Fire

section Reset

theorem vectorPage_toNat (vec : BitVec 16) : vectorPage vec = vec.toNat / 128 := by
  rw [vectorPage, BitVec.toNat_ushiftRight, Nat.shiftRight_eq_div_pow]

/-- A vector of the pinion page is told by its low seven bits. -/
theorem pinion_vector {vec : BitVec 16} (hv : vectorPage vec = 1) (n : ℕ) (_ : n < 128) :
    vec &&& 0x7F = BitVec.ofNat 16 n ↔ vec = BitVec.ofNat 16 (128+n) := by
  rw [vectorPage_toNat] at hv
  have hand : (vec &&& 0x7F).toNat = vec.toNat % 128 := by
    rw [BitVec.toNat_and]
    exact Nat.and_two_pow_sub_one_eq_mod vec.toNat 7
  rw [← BitVec.toNat_inj, ← BitVec.toNat_inj, hand, BitVec.toNat_ofNat, BitVec.toNat_ofNat]
  omega

/-- A reset fires the vector of a report queue again as long as the queue holds a report. -/
theorem interruptVectorReset_vector (h : Vectors k) (q : TcbQueue) :
    interruptVectorReset k q.vector =
      if k.queueHead q ≠ 0 then interruptVectorFire k q.vector else k := by
  obtain ⟨r, hr⟩ := h.pinion
  have hpage : vectorPage q.vector = 1 := by cases q <;> decide
  have hrun : interruptVectorReset k q.vector = pinionOnReset k q.vector := by
    simp only [interruptVectorReset, hpage, hr, Option.bind_some]
    rfl
  rw [hrun]
  cases q <;> simp [pinionOnReset, hasPagefault, hasMiscfault, hasZombie, hasQueued,
    TcbQueue.vector, pinionInterruptPagefault, pinionInterruptMiscfault, pinionInterruptZombie]

theorem interruptVectorReset_other (h : Vectors k) {vec : BitVec 16}
    (hlt : vectorPage vec < 128) (hne : ∀ q : TcbQueue, vec ≠ q.vector) :
    interruptVectorReset k vec = k := by
  by_cases h1 : vectorPage vec = 1
  · obtain ⟨r, hr⟩ := h.pinion
    have hbit : ∀ n < 128, vec ≠ BitVec.ofNat 16 (128+n) → vec &&& 0x7F ≠ BitVec.ofNat 16 n :=
      fun n hn hv hc => hv ((pinion_vector h1 n hn).mp hc)
    have hrun : interruptVectorReset k vec = pinionOnReset k vec := by
      simp only [interruptVectorReset, h1, hr, Option.bind_some]
      rfl
    have h0 : ¬ vec &&& 0x7F = 0 := hbit 0 (by decide) (hne .pagefault)
    have h1 : ¬ vec &&& 0x7F = 1 := hbit 1 (by decide) (hne .miscfault)
    have h2 : ¬ vec &&& 0x7F = 2 := hbit 2 (by decide) (hne .zombie)
    rw [hrun, pinionOnReset, if_neg h0, if_neg h1, if_neg h2]
  · by_cases h2 : vectorPage vec = 2
    · obtain ⟨r, hr⟩ := h.irq
      simp only [interruptVectorReset, h2, hr, Option.bind_some]
      rfl
    · simp only [interruptVectorReset, h.other _ hlt h1 h2]

/-- A reset is at most a firing of the vector of a queue that holds a report. -/
theorem interruptVectorReset_cases (h : Vectors k) {vec : BitVec 16}
    (hlt : vectorPage vec < 128) :
    interruptVectorReset k vec = k ∨ ∃ q : TcbQueue, vec = q.vector ∧ k.queueHead q ≠ 0 ∧
      interruptVectorReset k vec = interruptVectorFire k vec := by
  by_cases hq : ∃ q : TcbQueue, vec = q.vector
  · obtain ⟨q, rfl⟩ := hq
    rw [interruptVectorReset_vector h]
    split_ifs with h0
    · exact Or.inr ⟨q, rfl, h0, rfl⟩
    · exact Or.inl rfl
  · exact Or.inl (interruptVectorReset_other h hlt (not_exists.mp hq))

end Reset

section Schedule

theorem relink_setState (k : Kernel) (t : Ptr) (s : BitVec 16) (n : Ptr → Ptr) (hd tl : Ptr) :
    (k.setState t s).relink n hd tl = (k.relink n hd tl).setState t s := by
  have ht : ((k.setState t s).relink n hd tl).tcb = ((k.relink n hd tl).setState t s).tcb := by
    funext p
    rw [Kernel.relink, Kernel.setState, Kernel.setState, Kernel.updTcb_tcb]
    simp only [Kernel.updTcb_tcb]
    split_ifs with hp
    · subst hp
      rfl
    · rfl
  exact congrArg (fun b => { k.relink n hd tl with tcb := b }) ht

theorem schedulerPushTcb_setState (k : Kernel) (t : Ptr) (s : BitVec 16) :
    schedulerPushTcb (k.setState t s) t = (schedulerPushTcb k t).setState t s := by
  rw [schedulerPushTcb_eq, schedulerPushTcb_eq, relink_setState, Kernel.setState_next]
  rfl

theorem schedulerPullTcb_setState (k : Kernel) (t : Ptr) (s : BitVec 16) :
    schedulerPullTcb (k.setState t s) =
      ((schedulerPullTcb k).1, (schedulerPullTcb k).2.setState t s) := by
  rw [schedulerPullTcb_relink, schedulerPullTcb_relink, relink_setState, Kernel.setState_next]
  rfl

theorem ccbUnloadTcb_fst (k : Kernel) : (ccbUnloadTcb k).1 = k.activeTcb := by
  unfold ccbUnloadTcb
  split_ifs with h0
  · exact h0.symm
  · rfl

/-- The steps of scheduler_schedule. -/
def ScheduleMay (k : Kernel) : Effect → Prop
  | .unload => True
  | .ready t => t = k.activeTcb ∧ t ≠ 0
  | .dispatch _ => True
  | .inject => True
  | _ => False

/-- What scheduler_schedule does: unload, put the block that was active at the end of the run
queue, and load the first one, or the idle block if there is none. -/
structure Scheduled (P : Platform) (k k₁ k₂ : Kernel) (e : Effect) : Prop where
  unload : Effect.apply P k .unload = some k₁
  idle : k.activeTcb = 0 → k₂ = k₁
  requeue : k.activeTcb ≠ 0 →
    Enabled P k₁ (.ready k.activeTcb) ∧ Effect.apply P k₁ (.ready k.activeTcb) = some k₂
  choice : e = .dispatch k₂.scheduleHead ∧ (schedulerSchedule P k).2 = .resume ∨
    e = .inject ∧ (schedulerSchedule P k).2 = .idle
  enabled : Enabled P k₂ e
  load : e.apply P k₂ = some (schedulerSchedule P k).1

theorem Sound.schedule (hs : Sound P k) : ∃ k₁ k₂ e, Scheduled P k k₁ k₂ e := by
  let k₁ := (ccbUnloadTcb k).2
  let k₂ := if k.activeTcb ≠ 0 then (schedulerPushTcb k₁ k.activeTcb).setState k.activeTcb
    tcbStateQueued else k₁
  have hs1 : Sound P k₁ := by
    obtain ⟨run, free, hc⟩ := hs
    exact ⟨run, free, hc.unload⟩
  have ha1 : k₁.activeTcb = 0 := ccbUnloadTcb_active k
  have hidle : k.activeTcb = 0 → k₂ = k₁ := fun h0 => if_neg (not_not.mpr h0)
  have hpush : k.activeTcb ≠ 0 →
      k₂ = (schedulerPushTcb k₁ k.activeTcb).setState k.activeTcb tcbStateQueued := fun h0 => if_pos h0
  have hready : k.activeTcb ≠ 0 → Enabled P k₁ (.ready k.activeTcb) := by
    intro h0
    obtain ⟨run, free, hc⟩ := hs
    obtain ⟨hl, hq⟩ := hc.active.resolve_left h0
    refine ⟨?_, ?_, ?_⟩
    · have hlive : k₁.Live k.activeTcb ↔ k.Live k.activeTcb := by
        have ht := (Effect.spec ⟨run, free, hc⟩ (e := .unload) trivial rfl).table
        simp only [Kernel.Live]
        rw [show k₁.tableEntry = k.tableEntry from ht]
      rw [hlive]
      exact hl
    · rw [ccbUnloadTcb_state]
      exact hq
    · rw [ha1]
      exact Ne.symm h0
  have h2 : Sound P k₂ ∧ k₂.activeTcb = 0 := by
    by_cases h0 : k.activeTcb = 0
    · rw [hidle h0]
      exact ⟨hs1, ha1⟩
    · obtain ⟨k', hk', hs'⟩ := hs1.effect (hready h0)
      obtain rfl := Option.some.inj hk'
      rw [hpush h0]
      refine ⟨hs', ?_⟩
      rw [schedulerPushTcb_eq]
      exact ha1
  obtain ⟨hs2, ha2⟩ := h2
  have hsched : schedulerSchedule P k = if k₂.scheduleHead ≠ 0 then
      ((ccbLoadTcb ((schedulerPullTcb k₂).2.setState k₂.scheduleHead tcbStateRunning)
        k₂.scheduleHead).2, .resume)
      else ((ccbLoadTcb (schedulerPullTcb k₂).2 P.idleTcb).2, .idle) := by
    have hk₂ : (if (ccbUnloadTcb k).1 ≠ 0 then schedulerPushTcb (k₁.setState (ccbUnloadTcb k).1
        tcbStateQueued) (ccbUnloadTcb k).1 else k₁) = k₂ := by
      rw [ccbUnloadTcb_fst, schedulerPushTcb_setState]
    simp only [schedulerSchedule]
    rw [hk₂]
    rfl
  have hrequeue : k.activeTcb ≠ 0 → Enabled P k₁ (.ready k.activeTcb) ∧
      Effect.apply P k₁ (.ready k.activeTcb) = some k₂ :=
    fun h0 => ⟨hready h0, congrArg some (hpush h0).symm⟩
  by_cases hh : k₂.scheduleHead = 0
  · rw [if_neg (not_not.mpr hh)] at hsched
    have hpull : (schedulerPullTcb k₂).2 = k₂ := by
      obtain ⟨run, free, hc⟩ := hs2
      have hrun := hc.fifo.eq_nil_iff.mpr hh
      subst hrun
      rw [schedulerPullTcb_nil hc.fifo]
    refine ⟨k₁, k₂, .inject, rfl, hidle, hrequeue, Or.inr ⟨rfl, ?_⟩, ⟨ha2, hh⟩, ?_⟩
    · rw [hsched]
    · rw [hsched, hpull]
      rfl
  · rw [if_pos hh] at hsched
    refine ⟨k₁, k₂, .dispatch k₂.scheduleHead, rfl, hidle, hrequeue, Or.inl ⟨rfl, ?_⟩,
      ⟨ha2, hh, rfl⟩, ?_⟩
    · rw [hsched]
    · rw [hsched]
      rfl

/-- The block that scheduler_schedule finds active goes to the end of the run queue, then the
first one is loaded, or the idle block if there is none. -/
theorem schedule_effects (hs : Sound P k) :
    Effects P (ScheduleMay k) k (schedulerSchedule P k).1 ∧
    ((schedulerSchedule P k).2 = .resume ∧
        (schedulerSchedule P k).1.state (schedulerSchedule P k).1.activeTcb = tcbStateRunning ∧
        (schedulerSchedule P k).1.activeTcb ≠ 0 ∨
      (schedulerSchedule P k).2 = .idle ∧
        (schedulerSchedule P k).1.activeTcb = P.idleTcb) := by
  obtain ⟨k₁, k₂, e, h⟩ := hs.schedule
  have h1 : Effects P (ScheduleMay k) k k₁ := .single (e := .unload) trivial trivial h.unload
  have h2 : Effects P (ScheduleMay k) k k₂ := by
    by_cases h0 : k.activeTcb = 0
    · rw [h.idle h0]
      exact h1
    · exact .tail h1 ⟨(h.requeue h0).1, rfl, h0⟩ (h.requeue h0).2
  have hs2 := hs.effects h2
  have hact := (Effect.spec hs2 h.enabled h.load).active
  rcases h.choice with ⟨rfl, hf⟩ | ⟨rfl, hf⟩
  · have hrun : (schedulerSchedule P k).1.state k₂.scheduleHead = tcbStateRunning := by
      rw [← Option.some.inj h.load, ccbLoadTcb_state, Kernel.setState_state, if_pos rfl]
    refine ⟨.tail h2 ⟨h.enabled, trivial⟩ h.load, Or.inl ⟨hf, ?_, ?_⟩⟩
    · rw [hact]
      exact hrun
    · rw [hact]
      exact h.enabled.2.1
  · exact ⟨.tail h2 ⟨h.enabled, trivial⟩ h.load, Or.inr ⟨hf, hact⟩⟩

end Schedule

section Trap

/-- The report queue that a fault vector is entered in. -/
def faultQueue (iv : BitVec 32) : Option TcbQueue :=
  if iv = 14 then some .pagefault
  else if iv = 8 then none
  else if iv < 32 then some .miscfault
  else none

/-- The handler puts the thread it interrupts back on the run queue. -/
def Requeues (k : Kernel) (iv : BitVec 32) (rdi : Word) : Prop :=
  iv = 32 ∨ iv = 0x100 ∧ (rdi ≠ 0 ∨ k.state k.activeTcb = tcbStateRunning)

/-- The steps of a trap, told from the state in which it strikes. -/
def TrapMay (k : Kernel) (iv : BitVec 32) (rdi : Word) : Effect → Prop
  | .regs t .. => t = k.activeTcb
  | .unload => True
  | .ready t => t = k.activeTcb ∧ Requeues k iv rdi
  | .report q t => t = k.activeTcb ∧ faultQueue iv = some q
  | .flag v t j => (∃ q, faultQueue iv = some q ∧ v = q.vector) ∧ Fired k v t j
  | .wake v t j => (∃ q, faultQueue iv = some q ∧ v = q.vector) ∧ Fired k v t j ∧
      k.state t = tcbStateWaiting
  | .unwait v t j => (∃ q, faultQueue iv = some q ∧ v = q.vector) ∧ Fired k v t j ∧
      k.state t = tcbStateSuspendedWaiting
  | .dispatch _ => True
  | .inject => True
  | _ => False

/-- The steps of the handler, behind the saving of the registers. -/
def HandlerMay (k : Kernel) (iv : BitVec 32) (rdi : Word) : Effect → Prop
  | .regs .. => False
  | e => TrapMay k iv rdi e

theorem HandlerMay.trap {iv : BitVec 32} {rdi : Word} (h : HandlerMay k iv rdi e) :
    TrapMay k iv rdi e := by
  cases e with
  | regs => exact h.elim
  | _ => exact h

theorem fired_congr {k₁ : Kernel} (hp : k₁.vectorPageTable = k.vectorPageTable) {t : Ptr}
    (ht : (k₁.tcb t).tap = (k.tcb t).tap) (vec : BitVec 16) (j : Fin 4) :
    Fired k₁ vec t j ↔ Fired k vec t j := by
  rw [Fired, Fired, Kernel.Routed, Kernel.Routed, Kernel.routeOf, Kernel.routeOf, hp,
    tapOf_congr ht]

theorem vectorPage_vector (q : TcbQueue) : vectorPage q.vector < 128 := by cases q <;> decide

/-- How a trap ends: with a running thread, with the idle block, where it began, or never. -/
structure TrapEnd (P : Platform) (k k' : Kernel) (iv : BitVec 32) (f : Flow) : Prop where
  resume : f = .resume → k' = k ∧ iv ≠ 32 ∧ iv ≠ 0x100 ∧ faultQueue iv = none ∨
    k'.activeTcb ≠ 0 ∧ k'.state k'.activeTcb = tcbStateRunning
  idle : f = .idle → k'.activeTcb = P.idleTcb
  hang : f = .hang → k' = k ∧ iv = 8

theorem TrapEnd.of_schedule {k' k₁ : Kernel} {iv : BitVec 32} {f : Flow}
    (h : f = .resume ∧ k'.state k'.activeTcb = tcbStateRunning ∧ k'.activeTcb ≠ 0 ∨
      f = .idle ∧ k'.activeTcb = P.idleTcb) : TrapEnd P k₁ k' iv f := by
  rcases h with ⟨rfl, h1, h2⟩ | ⟨rfl, h1⟩
  · exact ⟨fun _ => Or.inr ⟨h2, h1⟩, by simp, by simp⟩
  · exact ⟨by simp, fun _ => h1, by simp⟩

/-- A fault queues a report, fires the vector of the queue and schedules. -/
theorem report_effects (hs : Sound P k) {iv : BitVec 32} (rdi : Word) {q : TcbQueue}
    (hq : faultQueue iv = some q) (ha : k.activeTcb ≠ 0) :
    Effects P (HandlerMay k iv rdi) k (schedulerSchedule P (interruptVectorFire (enqueue
      (ccbUnloadTcb k).2 q (ccbUnloadTcb k).1) q.vector)).1 ∧
    ∀ k₁, TrapEnd P k₁ (schedulerSchedule P (interruptVectorFire (enqueue
      (ccbUnloadTcb k).2 q (ccbUnloadTcb k).1) q.vector)).1 iv (schedulerSchedule P
      (interruptVectorFire (enqueue (ccbUnloadTcb k).2 q (ccbUnloadTcb k).1) q.vector)).2 := by
  rw [ccbUnloadTcb_fst]
  have hact : (k.Live k.activeTcb ∨ k.activeTcb = P.idleTcb) ∧
      k.state k.activeTcb ≠ tcbStateQueued := by
    obtain ⟨run, free, hc⟩ := hs
    exact hc.active.resolve_left ha
  have h1 : Effects P (HandlerMay k iv rdi) k (ccbUnloadTcb k).2 :=
    .single (e := .unload) trivial trivial rfl
  have hs1 := Effect.spec hs (e := .unload) trivial rfl
  have hlive1 : (ccbUnloadTcb k).2.tableEntry = k.tableEntry := hs1.table
  let k₂ := enqueue (ccbUnloadTcb k).2 q k.activeTcb
  have hen : Enabled P (ccbUnloadTcb k).2 (.report q k.activeTcb) := by
    refine ⟨?_, ?_⟩
    · simp only [Kernel.Live, hlive1]
      exact hact.1
    · rw [ccbUnloadTcb_state]
      exact hact.2
  have h2 : Effects P (HandlerMay k iv rdi) k k₂ := .tail h1 ⟨hen, rfl, hq⟩ rfl
  have hs2 := Effect.spec (hs.effects h1) hen rfl
  have hpage2 : k₂.vectorPageTable = k.vectorPageTable := hs2.pages.trans hs1.pages
  have htap2 : ∀ p, (k₂.tcb p).tap = (k.tcb p).tap := fun p => (hs2.tap p).trans (hs1.tap p)
  have hst2 : ∀ p, k₂.state p = k.state p := by
    intro p
    have he : k₂.state p = (ccbUnloadTcb k).2.state p := by
      change (enqueue _ _ _).state p = _
      rw [enqueue_eq]
      rfl
    rw [he, ccbUnloadTcb_state]
  have ha2 : k₂.activeTcb = 0 := hs2.active.trans hs1.active
  have hfire := fire_effects (hs.effects h2) (vectorPage_vector q) (Or.inl ha2)
  have h3 : Effects P (HandlerMay k iv rdi) k (interruptVectorFire k₂ q.vector) := by
    refine h2.trans (hfire.weaken fun e he => ?_)
    cases e with
    | flag v t j =>
      obtain ⟨rfl, hf⟩ := he
      exact ⟨⟨q, hq, rfl⟩, (fired_congr hpage2 (htap2 t) _ j).mp hf⟩
    | wake v t j =>
      obtain ⟨rfl, hf, hw⟩ := he
      exact ⟨⟨q, hq, rfl⟩, (fired_congr hpage2 (htap2 t) _ j).mp hf, (hst2 t).symm.trans hw⟩
    | unwait v t j =>
      obtain ⟨rfl, hf, hw⟩ := he
      exact ⟨⟨q, hq, rfl⟩, (fired_congr hpage2 (htap2 t) _ j).mp hf, (hst2 t).symm.trans hw⟩
    | _ => exact he.elim
  have hframe := (FireFrame.refl k₂).effects (hs.effects h2) hfire
  obtain ⟨hsched, hend⟩ := schedule_effects (hs.effects h3)
  refine ⟨h3.trans (hsched.weaken fun e he => ?_), fun k₁ => .of_schedule hend⟩
  cases e with
  | unload => trivial
  | dispatch t => trivial
  | inject => trivial
  | ready t => exact absurd (he.1.trans (hframe.active.trans ha2)) he.2
  | _ => exact he.elim

/-- The handler as a sequence of steps. -/
theorem fault_effects (hs : Sound P k) (ha : k.activeTcb ≠ 0) :
    Effects P (HandlerMay k (k.tcb k.activeTcb).ivect (k.tcb k.activeTcb).regs.rdi) k
      (fault P k k.activeTcb).1 ∧
    TrapEnd P k (fault P k k.activeTcb).1 (k.tcb k.activeTcb).ivect
      (fault P k k.activeTcb).2 := by
  generalize hiv : (k.tcb k.activeTcb).ivect = iv
  generalize hrdi : (k.tcb k.activeTcb).regs.rdi = rdi
  have hsched : ∀ k₁, Effects P (HandlerMay k iv rdi) k k₁ →
      (k₁.activeTcb = 0 ∨ k₁.activeTcb = k.activeTcb ∧ Requeues k iv rdi) →
      Effects P (HandlerMay k iv rdi) k (schedulerSchedule P k₁).1 ∧
      TrapEnd P k (schedulerSchedule P k₁).1 iv (schedulerSchedule P k₁).2 := by
    intro k₁ h1 hact
    obtain ⟨h2, hend⟩ := schedule_effects (hs.effects h1)
    refine ⟨h1.trans (h2.weaken fun e he => ?_), .of_schedule hend⟩
    cases e with
    | unload => trivial
    | dispatch t => trivial
    | inject => trivial
    | ready t =>
      obtain ⟨rfl, h0⟩ := he
      obtain ⟨h1, h2⟩ := hact.resolve_left h0
      exact ⟨h1, h2⟩
    | _ => exact he.elim
  simp only [fault, hiv, hrdi]
  split_ifs with h32 h100 hy h14 h8 hlt
  · exact hsched k .refl (Or.inr ⟨rfl, Or.inl h32⟩)
  · exact hsched _ (.single (e := .unload) trivial trivial rfl) (Or.inl (ccbUnloadTcb_active k))
  · refine hsched k .refl (Or.inr ⟨rfl, Or.inr ⟨h100, ?_⟩⟩)
    by_contra hc
    exact hy (not_or.mp hc |>.imp not_not.mp id)
  · have hq : faultQueue iv = some .pagefault := if_pos h14
    obtain ⟨h1, h2⟩ := report_effects hs rdi hq ha
    exact ⟨h1, h2 k⟩
  · exact ⟨.refl, by simp, by simp, fun _ => ⟨rfl, h8⟩⟩
  · have hq : faultQueue iv = some .miscfault := by
      rw [faultQueue, if_neg h14, if_neg h8, if_pos hlt]
    obtain ⟨h1, h2⟩ := report_effects hs rdi hq ha
    exact ⟨h1, h2 k⟩
  · refine ⟨.refl, fun _ => Or.inl ⟨rfl, h32, h100, ?_⟩, by simp, by simp⟩
    rw [faultQueue, if_neg h14, if_neg h8, if_neg hlt]

end Trap
end Pinion64
