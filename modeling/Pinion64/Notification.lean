import Pinion64.Taps
import Pinion64.Reports

/-! The notification of pending reports: the flags of the taps set to a report vector follow the
queue of the vector, and nobody with a flag waits. -/
namespace Pinion64
open Intrusive Transition

/-- As long as the queue holds a report, the blocks that its route names are flagged. -/
def Alert (q : TcbQueue) (k : Kernel) : Prop :=
  k.queueHead q ≠ 0 → ∀ t, k.Routed q.vector t → (k.tcb t).HasTap q.vector →
    (k.tcb t).HasFired q.vector

/-- A thread that waits has no fired tap. -/
def Quiet (k : Kernel) : Prop :=
  ∀ t, k.Live t → k.state t = tcbStateWaiting ∨ k.state t = tcbStateSuspendedWaiting →
    ∀ j, (k.tcb t).tap j &&& 0x8000 = 0

/-- The steps that neither report in the queue nor change a tap's vector or a route. -/
def Effect.Silent (q : TcbQueue) : Effect → Prop
  | report q' _ => q' ≠ q
  | setTap .. => False
  | setSlot .. => False
  | _ => True

variable {P : Platform} {k k' : Kernel} {s s' : Sys} {q : TcbQueue} {f : Effect} {e : Event}

section Effects

theorem Alert.of_same (h : Alert q k) (hh : k'.queueHead q ≠ 0 → k.queueHead q ≠ 0)
    (hp : k'.vectorPageTable = k.vectorPageTable)
    (ht : ∀ t, (k'.tcb t).tap = (k.tcb t).tap ∨
      ∃ j, (k'.tcb t).tap = ((k.tcb t).fireTap j).tap) : Alert q k' := by
  intro h0 t hr htap
  have hr' : k.Routed q.vector t := by
    rw [Kernel.Routed, Kernel.routeOf, hp] at hr
    exact hr
  rcases ht t with he | ⟨j, he⟩
  · rw [Tcb.hasTap_congr he] at htap
    rw [Tcb.hasFired_congr he]
    exact h (hh h0) t hr' htap
  · rw [Tcb.hasTap_congr he, Tcb.fireTap_hasTap] at htap
    rw [Tcb.hasFired_congr he]
    exact (h (hh h0) t hr' htap).fireTap

/-- Only a report or a change of taps and routes can leave a report unnoticed. -/
theorem Alert.effect (h : Alert q k) (hs : Sound P k) (he : Enabled P k f)
    (hk : f.apply P k = some k') (hf : f.Silent q) : Alert q k' := by
  have hsp := Effect.spec hs he hk
  have htap : ∀ {t p j}, (k'.tcb p).tap = ((k.fireTap t j).tcb p).tap →
      (k'.tcb p).tap = (k.tcb p).tap ∨ ∃ j, (k'.tcb p).tap = ((k.tcb p).fireTap j).tap := by
    intro t p j hp
    rw [Kernel.fireTap, Kernel.updTcb_tcb] at hp
    split_ifs at hp with hpt
    · subst hpt
      exact Or.inr ⟨j, hp⟩
    · exact Or.inl hp
  have hsame : k'.queueHead = k.queueHead → k'.queueHead q ≠ 0 → k.queueHead q ≠ 0 :=
    fun hq h0 => hq ▸ h0
  cases f with
  | report q' t =>
    refine h.of_same (fun h0 => ?_) hsp.pages fun p => Or.inl (hsp.tap p)
    rw [hsp.heads, Effect.heads, Function.update_of_ne] at h0
    · exact h0
    · exact Ne.symm hf
  | fetch q' =>
    refine h.of_same (fun h0 => ?_) hsp.pages fun p => Or.inl (hsp.tap p)
    rw [hsp.heads, Effect.heads, getQueued] at h0
    intro hc
    by_cases hq : q = q'
    · subst hq
      rw [if_neg (not_not.mpr hc)] at h0
      exact h0 hc
    · split_ifs at h0
      · exact h0 ((Function.update_of_ne hq ..).trans hc)
      · exact h0 hc
  | flag v t j => exact h.of_same (hsame hsp.heads) hsp.pages fun p => htap (hsp.tap p)
  | wake v t j => exact h.of_same (hsame hsp.heads) hsp.pages fun p => htap (hsp.tap p)
  | unwait v t j => exact h.of_same (hsame hsp.heads) hsp.pages fun p => htap (hsp.tap p)
  | setTap t i v => exact hf.elim
  | setSlot v i t => exact hf.elim
  | _ => exact h.of_same (hsame hsp.heads) hsp.pages fun p => Or.inl (hsp.tap p)

theorem Alert.effects {A : Effect → Prop} (h : Alert q k) (hs : Sound P k)
    (hr : Effects P A k k') (hA : ∀ f, A f → f.Silent q) : Alert q k' :=
  hr.keep (I := Alert q) h hs fun _ f _ ha hsa he hf hb => ha.effect hsa he hb (hA f hf)

/-- Nobody is made to wait with a flag, and who waits is woken with the flag. -/
theorem Quiet.effect (h : Quiet k) (hs : Sound P k) (he : Enabled P k f)
    (hk : f.apply P k = some k') : Quiet k' := by
  have hsp := Effect.spec hs he hk
  intro p hl hw j
  rw [hsp.tap p]
  -- a block that has just become a thread is suspended
  by_cases hold : k.Live p
  · have hst := hsp.state p (Or.inl ⟨hl, hold⟩)
    have hkeep : f.stateOf k p = k.state p → f.taps k p = (k.tcb p).tap →
        f.taps k p j &&& 0x8000 = 0 := by
      intro h1 h2
      rw [h2]
      rw [hst, h1] at hw
      exact h p hold hw j
    have hfire : ∀ {t i}, p ≠ t → ((k.fireTap t i).tcb p).tap = (k.tcb p).tap := fun hne =>
      congrArg Tcb.tap (k.updTcb_of_ne _ p _ hne)
    have hnot : ∀ {x : BitVec 16}, f.stateOf k p = x → x ≠ tcbStateWaiting →
        x ≠ tcbStateSuspendedWaiting → f.taps k p j &&& 0x8000 = 0 := by
      rintro x hx h1 h2
      rw [hst, hx] at hw
      exact absurd hw (not_or.mpr ⟨h1, h2⟩)
    cases f with
    | ready t =>
      by_cases hp : p = t
      · exact hnot (if_pos hp) (by decide) (by decide)
      · exact hkeep (if_neg hp) rfl
    | dispatch t =>
      by_cases hp : p = t
      · exact hnot (if_pos hp) (by decide) (by decide)
      · exact hkeep (if_neg hp) rfl
    | block t =>
      by_cases hp : p = t
      · exact hnot (if_pos hp) (by decide) (by decide)
      · exact hkeep (if_neg hp) rfl
    | shift t s =>
      by_cases hp : p = t
      · subst hp
        rcases he.2 with ⟨h1, -⟩ | ⟨h1, -⟩ | ⟨-, rfl⟩ | ⟨-, -, h1⟩
        · exact h p hold (Or.inl h1) j
        · exact h p hold (Or.inr h1) j
        · exact hnot (if_pos rfl) (by decide) (by decide)
        · exact h1 j
      · exact hkeep (if_neg hp) rfl
    | flag v t i =>
      by_cases hp : p = t
      · subst hp
        exact hnot rfl he.2.1 he.2.2
      · exact hkeep rfl (hfire hp)
    | wake v t i =>
      by_cases hp : p = t
      · exact hnot (if_pos hp) (by decide) (by decide)
      · exact hkeep (if_neg hp) (hfire hp)
    | unwait v t i =>
      by_cases hp : p = t
      · exact hnot (if_pos hp) (by decide) (by decide)
      · exact hkeep (if_neg hp) (hfire hp)
    | setTap t i v =>
      rw [hst] at hw
      change (if p = t then Function.update (k.tcb p).tap i v else (k.tcb p).tap) j &&& 0x8000 = 0
      split_ifs
      · by_cases hj : j = i
        · rw [hj, Function.update_self]
          exact he.2
        · rw [Function.update_of_ne hj]
          exact h p hold hw j
      · exact h p hold hw j
    | _ => exact hkeep rfl rfl
  · have hgone : k'.tableEntry = k.tableEntry → False := by
      intro ht
      rw [Kernel.Live, ht] at hl
      exact hold hl
    have ht := hsp.table
    cases f with
    | create =>
      obtain ⟨i, t, hc⟩ := ht
      obtain ⟨hi, rfl⟩ := ((hc.live p).mp hl).resolve_left hold
      rw [(hc.found hi).2] at hw
      exact absurd hw (by decide)
    | reap t => exact absurd ((ht.live p).mp hl).1 hold
    | _ => exact (hgone ht).elim

end Effects

section Fire

/-- A queue without a report asks for no flag. -/
theorem Alert.of_empty (h : k.queueHead q = 0) : Alert q k := fun h0 => absurd h h0

/-- The vector of the queue has just fired. -/
theorem Alert.fired : Alert q (interruptVectorFire k q.vector) := by
  intro _ t hr ht
  exact fire_hasFired ((fire_routed ..).mp hr) (fire_hasTap.mp ht)

theorem Alert.fire (h : Alert q k) (vec : BitVec 16) : Alert q (interruptVectorFire k vec) := by
  intro h0 t hr ht
  rw [(fire_links k vec).2] at h0
  exact (h h0 t ((fire_routed ..).mp hr) (fire_hasTap.mp ht)).fire

/-- A reset notifies what waits on the vector; the other vectors must be in order before. -/
theorem Alert.reset (hv : Vectors k) {vec : BitVec 16} (hlt : vectorPage vec < 128)
    (h : vec ≠ q.vector → Alert q k) : Alert q (interruptVectorReset k vec) := by
  by_cases hvec : vec = q.vector
  · subst hvec
    rw [interruptVectorReset_vector hv]
    split_ifs with h0
    · exact .fired
    · exact .of_empty (not_not.mp h0)
  · obtain he | ⟨q', -, -, he⟩ := interruptVectorReset_cases hv hlt
    · rw [he]
      exact h hvec
    · rw [he]
      exact (h hvec).fire vec

end Fire

section Taps

/-- The tap that set_tap replaces is the only fired one of several that the caller has on the
vector of the queue. -/
def Drops (q : TcbQueue) (k : Kernel) (i : Fin 4) (v : BitVec 16) : Prop :=
  v ≠ q.vector ∧ k.queueHead q ≠ 0 ∧ k.Routed q.vector k.activeTcb ∧
    (∃ j ≠ i, (k.tcb k.activeTcb).tap j &&& 0x3FFF = q.vector) ∧
    ∀ j ≠ i, (k.tcb k.activeTcb).tap j &&& 0x3FFF = q.vector →
      (k.tcb k.activeTcb).tap j &&& 0x8000 = 0

theorem Alert.of_retap {i : Fin 4} {v : BitVec 16} (h : Alert q k) (hv : v &&& 0xC000 = 0)
    (hne : v ≠ q.vector) (hd : ¬ Drops q k i v) : Alert q (retap k i v) := by
  have hf := retap_frame k i v
  intro h0 t hr ht
  rw [hf.heads] at h0
  by_cases hta : t = k.activeTcb
  · subst hta
    have hr' : k.Routed q.vector k.activeTcb := by
      obtain ⟨h1, r, hr, hj⟩ := hr
      rw [retap_routeOf, if_neg hne.symm] at hr
      exact untap_routed ⟨h1, r, hr, hj⟩
    have htap := retap_tap k i v k.activeTcb
    rw [if_pos rfl] at htap
    obtain ⟨j, hj⟩ := ht
    rw [htap] at hj
    have hji : j ≠ i := by
      rintro rfl
      rw [Function.update_self, low_eq_self hv] at hj
      exact hne hj
    rw [Function.update_of_ne hji] at hj
    -- one of the other taps has fired
    have hex : ∃ j ≠ i, (k.tcb k.activeTcb).tap j &&& 0x3FFF = q.vector ∧
        (k.tcb k.activeTcb).tap j &&& 0x8000 ≠ 0 := by
      by_contra hc
      refine hd ⟨hne, h0, hr', ⟨j, hji, hj⟩, fun m hm hlow => ?_⟩
      by_contra hfl
      exact hc ⟨m, hm, hlow, hfl⟩
    obtain ⟨m, hm, h1, h2⟩ := hex
    refine ⟨m, ?_, ?_⟩ <;> rwa [htap, Function.update_of_ne hm]
  · have htap := hf.tap t hta
    rw [Tcb.hasFired_congr htap]
    exact h h0 t (hf.routed _ t hta hr) ((Tcb.hasTap_congr htap).mp ht)

theorem Alert.of_unflag {i : Fin 4} (h : Alert q k)
    (hi : (k.tcb k.activeTcb).tap i &&& 0x3FFF ≠ q.vector) : Alert q (unflag k i) := by
  intro h0 t hr ht
  have htap := unflag_tap k i t
  split_ifs at htap with hta
  · subst hta
    have hlow : ∀ j, ((unflag k i).tcb k.activeTcb).tap j &&& 0x3FFF =
        (k.tcb k.activeTcb).tap j &&& 0x3FFF := by
      intro j
      rw [htap]
      by_cases hj : j = i
      · rw [hj, Function.update_self, BitVec.and_assoc]
        rfl
      · rw [Function.update_of_ne hj]
    obtain ⟨j, hj⟩ := ht
    obtain ⟨m, h1, h2⟩ := h h0 k.activeTcb hr ⟨j, (hlow j).symm.trans hj⟩
    refine ⟨m, (hlow m).trans h1, ?_⟩
    have hm : m ≠ i := by
      rintro rfl
      exact hi h1
    rwa [htap, Function.update_of_ne hm]
  · rw [Tcb.hasFired_congr htap]
    exact h h0 t hr ((Tcb.hasTap_congr htap).mp ht)

end Taps

section Events

/-- No set_tap takes the only flag of a pending report away from a thread that has another tap
for it. -/
def KeepsFlag (s : Sys) : Event → Prop
  | .call (.interruptSetTap index vec) => vec &&& 0xC000 = 0 →
    ∀ (h : index.toNat < 4) q, ¬ Drops q s.kernel (tapIndex index h) (vec.setWidth 16)
  | _ => True

theorem Alert.setTap (h : Alert q k) (hv : Vectors k) {index vec : BitVec 32}
    (hd : vec &&& 0xC000 = 0 → ∀ h : index.toNat < 4,
      ¬ Drops q k (tapIndex index h) (vec.setWidth 16)) :
    Alert q (apilogicInterruptSetTap k index vec).2 := by
  by_cases ha : index.toNat < 4 ∧ vec &&& 0xC000 = 0
  · rw [apilogicInterruptSetTap_accepted ha.1 ha.2]
    have hlow := accepted_low ha.2
    exact .reset (hv.retap _ _) (vectorPage_lt hlow) fun hne => h.of_retap hlow hne (hd ha.2 ha.1)
  · rw [apilogicInterruptSetTap_refused ha]
    exact h

theorem Alert.interruptReset (h : Alert q k) (hv : Vectors k) (vec : BitVec 32) :
    Alert q (apilogicInterruptReset k vec) := by
  obtain he | ⟨i, hi, he⟩ := apilogicInterruptReset_cases k vec
  · rw [he]
    exact h
  · rw [he]
    have hlow : vec.setWidth 16 = (k.tcb k.activeTcb).tap i &&& 0x3FFF := hi
    have hv' : Vectors (unflag k i) := hv.congr rfl
    refine .reset hv' ?_ fun hne => h.of_unflag fun hc => hne (hlow.trans hc)
    apply vectorPage_lt
    rw [hlow, BitVec.and_assoc]
    simp

/-- An event that keeps the flags leaves no report unnoticed. -/
theorem Alert.step (h : Alert q s.kernel) (hs : SysSound P s) (hk : KeepsFlag s e)
    (hst : s.step P e = some s') : Alert q s'.kernel := by
  have heff := (hs.step hst).2
  have htrap : ∀ {v : BitVec 32} {rdi : Word}, faultQueue v ≠ some q →
      Effects P (TrapMay s.kernel v rdi) s.kernel s'.kernel → Alert q s'.kernel := by
    intro v rdi hv hr
    refine h.effects hs.sound hr fun f hf => ?_
    cases f with
    | report q' t =>
      rintro rfl
      exact hv hf.2
    | setTap => exact hf.elim
    | setSlot => exact hf.elim
    | _ => trivial
  cases e with
  | run r => exact h.effects hs.sound heff fun _ hf => hf.elim
  | ret => exact h.effects hs.sound heff fun _ hf => hf.elim
  | yield => exact htrap (by simp [faultQueue]) heff
  | interrupt v er cr2 =>
    by_cases hq : faultQueue v = some q
    · obtain ⟨k₂, he, h0, hstate, htable, hk⟩ := step_fault hs hst hq
      obtain ⟨run, free, hc⟩ := hs.sound
      obtain ⟨hl, hst⟩ := hc.active.resolve_left hs.active
      obtain ⟨hs₃, -, hfire⟩ := notify_effects (t := s.active) (q := q) (hs.sound.effects he) h0
        (by rwa [Kernel.Live, htable]) (by rwa [hstate])
      have hs₄ := hs₃.effects hfire
      rw [hk]
      refine Alert.fired.effects hs₄ (schedule_effects hs₄).1 fun f hf => ?_
      cases f with
      | report => exact hf.elim
      | setTap => exact hf.elim
      | setSlot => exact hf.elim
      | _ => trivial
    · exact htrap hq heff
  | call c =>
    obtain ⟨hcall, -, r, hb⟩ := hs.step_call hst
    by_cases hset : ∃ i v, c = .interruptSetTap i v
    · obtain ⟨i, v, rfl⟩ := hset
      have hkern : (apilogicInterruptSetTap s.kernel i v).2 = s'.kernel :=
        congrArg Prod.snd (Option.some.inj hb)
      exact hkern ▸ h.setTap hs.vectors fun hv hi => hk hv hi q
    · by_cases hreset : ∃ v, c = .interruptReset v
      · obtain ⟨v, rfl⟩ := hreset
        have hkern : apilogicInterruptReset s.kernel v = s'.kernel :=
          congrArg Prod.snd (Option.some.inj hb)
        exact hkern ▸ h.interruptReset hs.vectors v
      · by_cases hexit : c = .threadExit ∧ q = .zombie
        · obtain ⟨rfl, rfl⟩ := hexit
          have hkern : apilogicThreadExit s.kernel = s'.kernel :=
            congrArg Prod.snd (Option.some.inj hb)
          exact hkern ▸ Alert.fired (q := .zombie)
        · refine h.effects hs.sound heff fun f hf => ?_
          cases f with
          | report q' t =>
            rintro rfl
            exact hexit ⟨hf.1, hf.2.1⟩
          | setTap => exact hf.2.elim hset hreset
          | setSlot => exact hset hf.1
          | _ => trivial

/-- A set_tap that takes the only flag away leaves the report unnoticed. -/
theorem Drops.not_alert {i : Fin 4} {v : BitVec 16} (hd : Drops q k i v) (h : Alert q k)
    (hv : Vectors k) (hlow : v &&& 0xC000 = 0) :
    ¬ Alert q (interruptVectorReset (retap k i v) v) := by
  obtain ⟨hne, h0, hr, ⟨j, hji, hj⟩, hfl⟩ := hd
  have hself := low_eq_self hlow
  have htap := retap_tap k i v k.activeTcb
  rw [if_pos rfl] at htap
  have hheads : (retap k i v).queueHead = k.queueHead := (retap_frame k i v).heads
  -- the old tap is flagged, so its vector's route stays
  have hold : (k.tcb k.activeTcb).tap i &&& 0x8000 ≠ 0 := by
    obtain ⟨m, h1, h2⟩ := h h0 k.activeTcb hr ⟨j, hj⟩
    by_cases hm : m = i
    · exact hm ▸ h2
    · exact absurd (hfl m hm h1) h2
  have hroute : (retap k i v).Routed q.vector k.activeTcb := by
    have hkeep : (retap k i v).routeOf q.vector = k.routeOf q.vector := by
      rw [retap_routeOf, if_neg hne.symm, untap_routeOf, if_neg]
      rintro ⟨-, hc⟩
      rw [← hc] at hold
      exact hold (by cases q <;> decide)
    rw [Kernel.Routed, hkeep]
    exact hr
  have hhas : ((retap k i v).tcb k.activeTcb).HasTap q.vector :=
    ⟨j, by rw [htap, Function.update_of_ne hji, hj]⟩
  have hnone : ¬ ((retap k i v).tcb k.activeTcb).HasFired q.vector := by
    rintro ⟨m, h1, h2⟩
    rw [htap] at h1 h2
    by_cases hm : m = i
    · subst hm
      rw [Function.update_self, hself] at h1
      exact hne h1
    · rw [Function.update_of_ne hm] at h1 h2
      exact h2 (hfl m hm h1)
  intro halert
  obtain he | ⟨q', -, -, he⟩ := interruptVectorReset_cases (hv.retap i v) (vectorPage_lt hlow)
  · rw [he] at halert
    exact hnone (halert (hheads ▸ h0) k.activeTcb hroute hhas)
  · rw [he] at halert
    have hfired := halert (by rw [(fire_links ..).2, hheads]; exact h0) k.activeTcb
      ((fire_routed ..).mpr hroute) (fire_hasTap.mpr hhas)
    exact hnone (hfired.of_fire hne.symm)

/-- Every pending report is noticed: whom its vector's route names is flagged, and nobody who is
flagged waits. -/
structure Noticed (k : Kernel) : Prop where
  alert : ∀ q, Alert q k
  quiet : Quiet k

/-- No handler of a pending report sleeps. -/
theorem Noticed.awake (h : Noticed k) {t : Ptr} (ht : k.Live t) (h0 : k.queueHead q ≠ 0)
    (hr : k.Routed q.vector t) (htap : (k.tcb t).HasTap q.vector) :
    k.state t ≠ tcbStateWaiting ∧ k.state t ≠ tcbStateSuspendedWaiting := by
  obtain ⟨j, -, hj⟩ := h.alert q h0 t hr htap
  exact not_or.mp fun hc => hj (h.quiet t ht hc j)

theorem Quiet.step (h : Quiet s.kernel) (hs : SysSound P s) (hst : s.step P e = some s') :
    Quiet s'.kernel :=
  (hs.step hst).2.keep (I := Quiet) h hs.sound fun _ _ _ ha hsa he _ hb => ha.effect hsa he hb

/-- An event after which every report is noticed is one that keeps the flags. -/
theorem Noticed.step_iff (h : Noticed s.kernel) (hs : SysSound P s)
    (hst : s.step P e = some s') : Noticed s'.kernel ↔ KeepsFlag s e := by
  constructor
  · intro h'
    cases e with
    | call c =>
      cases c with
      | interruptSetTap index vec =>
        intro hv hi q hd
        obtain ⟨-, -, r, hb⟩ := hs.step_call hst
        have hkern : (apilogicInterruptSetTap s.kernel index vec).2 = s'.kernel :=
          congrArg Prod.snd (Option.some.inj hb)
        have halert := h'.alert q
        rw [← hkern, apilogicInterruptSetTap_accepted hi hv] at halert
        exact hd.not_alert (h.alert q) hs.vectors (accepted_low hv) halert
      | _ => trivial
    | _ => trivial
  · intro hk
    exact ⟨fun q => (h.alert q).step hs hk hst, h.quiet.step hs hst⟩

theorem Booted.noticed (h : Booted P k) : Noticed k := by
  refine ⟨fun q => .of_empty (h.heads q), fun t ht hw => ?_⟩
  obtain rfl := (h.live t).mp ht
  rw [h.running] at hw
  exact absurd hw (by decide)

/-- As long as no set_tap takes the only flag of a pending report away from a thread with another
tap for it, every report is noticed; and the first set_tap that does leaves one unnoticed. -/
theorem no_lost_notification (b : Boot P) (hr : Run (Sys.step P) KeepsFlag b.sys s) :
    Noticed s.kernel ∧
      (∀ q t, s.kernel.Live t → s.kernel.queueHead q ≠ 0 → s.kernel.Routed q.vector t →
        (s.kernel.tcb t).HasTap q.vector →
        s.kernel.state t ≠ tcbStateWaiting ∧ s.kernel.state t ≠ tcbStateSuspendedWaiting) ∧
      ∀ e s', s.step P e = some s' → (Noticed s'.kernel ↔ KeepsFlag s e) := by
  have hboth : SysSound P s ∧ Noticed s.kernel :=
    hr.invariant (I := fun a => SysSound P a ∧ Noticed a.kernel)
      ⟨b.sys_sound, b.init_booted.noticed⟩ fun a e c ha hk hc =>
        ⟨(ha.1.step hc).1, (ha.2.step_iff ha.1 hc).mpr hk⟩
  obtain ⟨hs, hn⟩ := hboth
  exact ⟨hn, fun _ _ hl h0 hro ht => hn.awake hl h0 hro ht, fun _ _ hst => hn.step_iff hs hst⟩

instance (q : TcbQueue) (k : Kernel) (i : Fin 4) (v : BitVec 16) : Decidable (Drops q k i v) := by
  unfold Drops
  infer_instance

instance (s : Sys) (e : Event) : Decidable (KeepsFlag s e) := by
  unfold KeepsFlag
  split <;> infer_instance

/-- Thread 1 taps page faults with two taps and takes back the one that has not fired. -/
theorem no_lost_notification_second_tap : ∃ s, s.kernel.queueHead .pagefault ≠ 0 ∧
    Noticed s.kernel ∧
      (∀ q t, s.kernel.Live t → s.kernel.queueHead q ≠ 0 → s.kernel.Routed q.vector t →
        (s.kernel.tcb t).HasTap q.vector →
        s.kernel.state t ≠ tcbStateWaiting ∧ s.kernel.state t ≠ tcbStateSuspendedWaiting) ∧
      ∀ e s', s.step lowPlatform e = some s' → (Noticed s'.kernel ↔ KeepsFlag s e) := by
  obtain ⟨s, hr, hs⟩ := Run.exists_of_guarded (Sys.step lowPlatform) KeepsFlag lowBoot.sys
    [.call (.interruptSetTap 0 0x80), .call (.interruptSetTap 1 0x80), .call .threadCreate, .yield,
      .ret, .call (.threadResume 2), .yield, .interrupt 14 0 0, .ret, .call (.interruptSetTap 1 0)]
    (fun s => decide (s.kernel.queueHead .pagefault ≠ 0)) (by decide +kernel)
  exact ⟨s, of_decide_eq_true hs, no_lost_notification lowBoot hr⟩

/-- Thread 1 taps page faults with two taps. Thread 2 faults, and thread 1 replaces the first tap,
which has fired. -/
theorem second_tap_unnoticed : ¬ ∀ (P : Platform) (b : Boot P) (s : Sys), Reach b s →
    ∀ q, Alert q s.kernel := by
  intro h
  obtain ⟨s, hr, hs⟩ := Run.exists_of_exec (Sys.step lowPlatform) lowBoot.sys
    [.call (.interruptSetTap 0 0x80), .call (.interruptSetTap 1 0x80), .call .threadCreate, .yield,
      .ret, .call (.threadResume 2), .yield, .interrupt 14 0 0, .ret, .call (.interruptSetTap 0 0)]
    (fun s => decide (s.kernel.queueHead .pagefault ≠ 0 ∧ s.kernel.Routed 0x80 s.active ∧
      (s.kernel.tcb s.active).tap 1 = 0x80 ∧
      ∀ j, (s.kernel.tcb s.active).tap j &&& 0x8000 = 0)) (by decide +kernel)
  obtain ⟨h0, hroute, htap, hflag⟩ := of_decide_eq_true hs
  obtain ⟨j, -, hj⟩ := h lowPlatform lowBoot s hr .pagefault h0 s.active hroute
    ⟨1, by rw [htap]; decide⟩
  exact hj (hflag j)

end Events
end Pinion64
