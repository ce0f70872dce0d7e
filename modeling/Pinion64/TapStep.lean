import Pinion64.Ledger
import Pinion64.Notification

/-! What every event does to the taps of every block: it writes a tap, and then it fires a vector
or not. -/
namespace Pinion64
open Intrusive Transition

variable {P : Platform} {k k' : Kernel} {s s' : Sys} {e : Event} {p : Ptr} {i : Fin 4}
  {v w : BitVec 16}

section Definitions

/-- The tap that a reset takes the fired flag of. -/
def resetSlot (k : Kernel) (vec : BitVec 32) : Option (Fin 4) :=
  slots.find? fun i => ((k.tcb k.activeTcb).tap i &&& ~~~0xC000).setWidth 32 = vec

/-- The kernel in which a call has written its tap, but has not reset the vector. -/
def Call.rewired (k : Kernel) : Call → Kernel
  | interruptSetTap index vec =>
    if h : index.toNat < 4 then
      if vec &&& 0xC000 = 0 then retap k (tapIndex index h) (vec.setWidth 16) else k
    else k
  | interruptReset vec => ((resetSlot k vec).map (unflag k)).getD k
  | _ => k

def Event.rewired (k : Kernel) : Event → Kernel
  | .call c => c.rewired k
  | _ => k

/-- The vector, if it fires, sets the fired flag of this tap. -/
def Kernel.Rings (k : Kernel) (v : BitVec 16) (p : Ptr) (i : Fin 4) : Prop :=
  k.Routed v p ∧ (k.tcb p).tapOf v = some i

/-- The event sets the fired flag of this tap. -/
def Sys.Rings (s : Sys) (e : Event) (p : Ptr) (i : Fin 4) : Prop :=
  ∃ q : TcbQueue, s.Fires q.vector e ∧ (e.rewired s.kernel).Rings q.vector p i

instance decKernelRings (k : Kernel) (v : BitVec 16) (p : Ptr) (i : Fin 4) :
    Decidable (k.Rings v p i) :=
  inferInstanceAs (Decidable (_ ∧ _))

instance decCallFires (k : Kernel) (v : BitVec 16) : (c : Call) → Decidable (c.Fires k v)
  | .threadExit => inferInstanceAs (Decidable (v = pinionInterruptZombie))
  | .interruptReset _ => inferInstanceAs (Decidable (_ ∧ (∃ _ : Fin 4, _) ∧ ∃ _ : TcbQueue, _))
  | .interruptSetTap _ _ => inferInstanceAs (Decidable (_ ∧ (_ ∧ _) ∧ ∃ _ : TcbQueue, _))
  | .threadYield | .threadCreate | .threadPause _ | .threadResume _ | .threadReap _
  | .threadPullState .. | .threadPushState .. | .interruptGetTap _ | .interruptWait | .threadGet _
  | .faultGetPagefault _ | .faultGetMiscfault _ | .faultGetZombie _ | .pageSet .. | .pageGet _ =>
    instDecidableFalse

instance decSysFires (s : Sys) (v : BitVec 16) : (e : Event) → Decidable (s.Fires v e)
  | .call c => decCallFires s.kernel v c
  | .interrupt iv _ _ => inferInstanceAs (Decidable (∃ q, faultQueue iv = some q ∧ v = q.vector))
  | .yield => instDecidableFalse
  | .run _ => instDecidableFalse
  | .ret => instDecidableFalse

instance decSysRings (s : Sys) (e : Event) (p : Ptr) (i : Fin 4) : Decidable (s.Rings e p i) :=
  inferInstanceAs (Decidable (∃ _ : TcbQueue, _ ∧ _))

end Definitions

theorem rewired_accepted {index vec : BitVec 32} (h : index.toNat < 4) (hv : vec &&& 0xC000 = 0) :
    (Call.interruptSetTap index vec).rewired k = retap k (tapIndex index h) (vec.setWidth 16) := by
  rw [Call.rewired, dif_pos h, if_pos hv]

theorem rewired_refused {index vec : BitVec 32} (h : ¬ (index.toNat < 4 ∧ vec &&& 0xC000 = 0)) :
    (Call.interruptSetTap index vec).rewired k = k := by
  rw [Call.rewired]
  split_ifs with hi hv
  · exact absurd ⟨hi, hv⟩ h
  · rfl
  · rfl

section Fire

theorem Tcb.notify_tap (b : Tcb) (v : BitVec 16) (i : Fin 4) :
    (b.notify v).tap i = if b.tapOf v = some i then b.tap i ||| 0x8000 else b.tap i := by
  unfold notify
  cases b.tapOf v with
  | none => simp
  | some j =>
    simp only [fireTap_tap, Option.some.injEq]
    by_cases hi : i = j
    · rw [if_pos hi, if_pos hi.symm, hi]
    · rw [if_neg hi, if_neg (Ne.symm hi)]

/-- A firing vector flags the taps that it rings. -/
theorem fire_tap_of_rings (h : k.Rings v p i) :
    ((interruptVectorFire k v).tcb p).tap i = (k.tcb p).tap i ||| 0x8000 := by
  rw [fire_tap_routed h.1, Tcb.notify_tap, if_pos h.2]

theorem fire_tap_of_not_rings (h : ¬ k.Rings v p i) :
    ((interruptVectorFire k v).tcb p).tap i = (k.tcb p).tap i := by
  by_cases hr : k.Routed v p
  · rw [fire_tap_routed hr, Tcb.notify_tap, if_neg fun hc => h ⟨hr, hc⟩]
  · rw [fire_tap_other hr]

theorem Kernel.rings_congr (hp : k'.vectorPageTable = k.vectorPageTable)
    (ht : (k'.tcb p).tap = (k.tcb p).tap) : k'.Rings v p i ↔ k.Rings v p i := by
  rw [Rings, Rings, Routed, Routed, routeOf, routeOf, hp, tapOf_congr ht]

end Fire

section Effects

/-- The steps that change no tap. -/
def Effect.Still : Effect → Prop
  | flag .. => False
  | wake .. => False
  | unwait .. => False
  | setTap .. => False
  | _ => True

theorem tap_effects {A : Effect → Prop} (hs : Sound P k) (h : Effects P A k k')
    (hA : ∀ f, A f → f.Still) (p : Ptr) : (k'.tcb p).tap = (k.tcb p).tap := by
  refine h.keep (I := fun a => (a.tcb p).tap = (k.tcb p).tap) rfl hs fun a f b ha hsa he hf hb => ?_
  rw [(Effect.spec hsa he hb).tap p, ← ha]
  have hstill := hA f hf
  cases f with
  | flag => exact hstill.elim
  | wake => exact hstill.elim
  | unwait => exact hstill.elim
  | setTap => exact hstill.elim
  | _ => rfl

theorem pages_effects {A : Effect → Prop} (hs : Sound P k) (h : Effects P A k k')
    (hA : ∀ vec i t, ¬ A (.setSlot vec i t)) : k'.vectorPageTable = k.vectorPageTable := by
  refine h.keep (I := fun a => a.vectorPageTable = k.vectorPageTable) rfl hs
    fun a f b ha hsa he hf hb => ?_
  rw [(Effect.spec hsa he hb).pages, ← ha]
  cases f with
  | setSlot vec i t => exact absurd hf (hA vec i t)
  | _ => rfl

/-- An event fires at most one vector. -/
theorem Sys.fires_unique (hv : s.Fires v e) (hw : s.Fires w e) : v = w := by
  cases e with
  | call c =>
    cases c with
    | threadExit => exact hv.trans hw.symm
    | interruptReset => exact hv.1.trans hw.1.symm
    | interruptSetTap => exact hv.1.trans hw.1.symm
    | _ => exact hv.elim
  | interrupt iv er cr2 =>
    obtain ⟨q, hq, rfl⟩ := hv
    obtain ⟨q', hq', rfl⟩ := hw
    rw [Option.some.inj (hq.symm.trans hq')]
  | _ => exact hv.elim

/-- The taps after a reset of the vector. -/
theorem reset_tap (hk : Vectors k) (hlt : vectorPage v < 128) :
    ((interruptVectorReset k v).tcb p).tap i =
      if (∃ q : TcbQueue, v = q.vector ∧ k.queueHead q ≠ 0) ∧ k.Rings v p i then
        (k.tcb p).tap i ||| 0x8000
      else (k.tcb p).tap i := by
  by_cases hq : ∃ q : TcbQueue, v = q.vector ∧ k.queueHead q ≠ 0
  · have hfire : interruptVectorReset k v = interruptVectorFire k v := by
      obtain ⟨q, rfl, h0⟩ := hq
      rw [interruptVectorReset_vector hk, if_pos h0]
    rw [hfire]
    split_ifs with hr
    · exact fire_tap_of_rings hr.2
    · exact fire_tap_of_not_rings fun hc => hr ⟨hq, hc⟩
  · rw [if_neg fun hc => hq hc.1]
    obtain he | ⟨q, hv, h0, -⟩ := interruptVectorReset_cases hk hlt
    · rw [he]
    · exact absurd ⟨q, hv, h0⟩ hq

end Effects

section Step

/-- The vector that fires rings exactly the taps that the event rings. -/
theorem Sys.rings_iff (h : s.Fires v e) (hv : ∃ q : TcbQueue, v = q.vector) :
    s.Rings e p i ↔ (e.rewired s.kernel).Rings v p i := by
  constructor
  · intro hr
    obtain ⟨q, hq, hr⟩ := hr
    rwa [s.fires_unique h hq]
  · intro hr
    obtain ⟨q, rfl⟩ := hv
    exact ⟨q, h, hr⟩

/-- An event that resets a vector rings the taps if a report of it waits. -/
theorem Sys.rings_reset {k₁ : Kernel} (hk₁ : e.rewired s.kernel = k₁)
    (hh : k₁.queueHead = s.kernel.queueHead)
    (h : ∀ w, s.Fires w e ↔ w = v ∧ ∃ q : TcbQueue, w = q.vector ∧ s.kernel.queueHead q ≠ 0) :
    s.Rings e p i ↔ (∃ q : TcbQueue, v = q.vector ∧ k₁.queueHead q ≠ 0) ∧ k₁.Rings v p i := by
  subst hk₁
  rw [hh]
  constructor
  · intro hr
    obtain ⟨q, hq, hr⟩ := hr
    obtain ⟨rfl, hp⟩ := (h q.vector).mp hq
    exact ⟨hp, hr⟩
  · intro hr
    obtain ⟨⟨q, rfl, h0⟩, hr⟩ := hr
    exact ⟨q, (h q.vector).mpr ⟨rfl, q, rfl, h0⟩, hr⟩

theorem setTap_step (hs : SysSound P s) {index vec : BitVec 32} (p : Ptr) (i : Fin 4) :
    ((apilogicInterruptSetTap s.kernel index vec).2.tcb p).tap i =
      if s.Rings (.call (.interruptSetTap index vec)) p i then
        (((Call.interruptSetTap index vec).rewired s.kernel).tcb p).tap i ||| 0x8000
      else (((Call.interruptSetTap index vec).rewired s.kernel).tcb p).tap i := by
  by_cases ha : index.toNat < 4 ∧ vec &&& 0xC000 = 0
  · have hk₁ : (Call.interruptSetTap index vec).rewired s.kernel =
        retap s.kernel (tapIndex index ha.1) (vec.setWidth 16) := rewired_accepted ha.1 ha.2
    rw [apilogicInterruptSetTap_accepted ha.1 ha.2, hk₁,
      reset_tap (hs.vectors.retap _ _) (vectorPage_lt (accepted_low ha.2))]
    refine if_congr (Sys.rings_reset (e := .call (.interruptSetTap index vec)) hk₁
      (retap_frame ..).heads fun w => ?_).symm rfl rfl
    exact and_congr_right fun _ => and_iff_right ha
  · have hk₁ : (Call.interruptSetTap index vec).rewired s.kernel = s.kernel := rewired_refused ha
    rw [apilogicInterruptSetTap_refused ha, hk₁, if_neg]
    intro hr
    obtain ⟨q, hq, -⟩ := hr
    exact ha hq.2.1

theorem resetTap_step (hs : SysSound P s) {vec : BitVec 32} (p : Ptr) (i : Fin 4) :
    ((apilogicInterruptReset s.kernel vec).tcb p).tap i =
      if s.Rings (.call (.interruptReset vec)) p i then
        (((Call.interruptReset vec).rewired s.kernel).tcb p).tap i ||| 0x8000
      else (((Call.interruptReset vec).rewired s.kernel).tcb p).tap i := by
  cases hf : resetSlot s.kernel vec with
  | none =>
    have hnone : ¬ ∃ j, ((s.kernel.tcb s.active).tap j &&& ~~~0xC000).setWidth 32 = vec := by
      intro hc
      obtain ⟨j, hj⟩ := hc
      exact absurd (decide_eq_true hj) (List.find?_eq_none.mp hf j (mem_slots j))
    have hk₁ : (Call.interruptReset vec).rewired s.kernel = s.kernel := by
      simp only [Call.rewired, hf]
      rfl
    have hk : apilogicInterruptReset s.kernel vec = s.kernel := by
      rw [resetSlot] at hf
      simp only [apilogicInterruptReset, hf]
    rw [hk, hk₁, if_neg]
    intro hr
    obtain ⟨q, hq, -⟩ := hr
    exact hnone hq.2.1
  | some j =>
    have hj : ((s.kernel.tcb s.kernel.activeTcb).tap j &&& ~~~0xC000).setWidth 32 = vec := by
      simpa using List.find?_some hf
    have hk₁ : (Call.interruptReset vec).rewired s.kernel = unflag s.kernel j := by
      simp only [Call.rewired, hf]
      rfl
    have hk : apilogicInterruptReset s.kernel vec =
        interruptVectorReset (unflag s.kernel j) (vec.setWidth 16) := by
      rw [resetSlot] at hf
      simp only [apilogicInterruptReset, hf]
      rfl
    have hlow : vec.setWidth 16 = (s.kernel.tcb s.active).tap j &&& 0x3FFF := by
      rw [← hj, BitVec.setWidth_setWidth_of_le _ (by decide), BitVec.setWidth_eq]
      rfl
    have hlt : vectorPage (vec.setWidth 16) < 128 := by
      apply vectorPage_lt
      rw [hlow, BitVec.and_assoc]
      simp
    have hv : Vectors (unflag s.kernel j) := hs.vectors.congr rfl
    rw [hk, hk₁, reset_tap hv hlt]
    refine if_congr (Sys.rings_reset (e := .call (.interruptReset vec)) hk₁ rfl
      fun w => ?_).symm rfl rfl
    exact and_congr_right fun _ => and_iff_right ⟨j, hj⟩

/-- An exit fires the vector of the zombies. -/
theorem exitTap_step (p : Ptr) (i : Fin 4) :
    ((apilogicThreadExit s.kernel).tcb p).tap i =
      if s.Rings (.call .threadExit) p i then (s.kernel.tcb p).tap i ||| 0x8000
      else (s.kernel.tcb p).tap i := by
  let k₁ := queueZombie (s.kernel.setState s.active tcbStateSuspended) s.active
  have hpage : k₁.vectorPageTable = s.kernel.vectorPageTable := by
    simp only [k₁, queueZombie]
    rw [enqueue_eq]
    rfl
  have htap : (k₁.tcb p).tap = (s.kernel.tcb p).tap := by
    simp only [k₁, queueZombie]
    rw [enqueue_eq]
    exact s.kernel.setState_tap s.active p _
  have hfires : s.Fires pinionInterruptZombie (.call .threadExit) := rfl
  have hiff : s.Rings (.call .threadExit) p i ↔ k₁.Rings pinionInterruptZombie p i :=
    (Sys.rings_iff hfires ⟨.zombie, rfl⟩).trans (Kernel.rings_congr hpage htap).symm
  rw [← htap]
  split_ifs with hr
  · exact fire_tap_of_rings (hiff.mp hr)
  · exact fire_tap_of_not_rings fun hc => hr (hiff.mpr hc)

/-- The taps after an event: what it writes, with the flags that it sets. -/
theorem tap_step (hs : SysSound P s) (hst : s.step P e = some s') (p : Ptr) (i : Fin 4) :
    (s'.kernel.tcb p).tap i =
      if s.Rings e p i then ((e.rewired s.kernel).tcb p).tap i ||| 0x8000
      else ((e.rewired s.kernel).tcb p).tap i := by
  have heff := (hs.step hst).2
  -- an event that fires nothing and writes nothing
  have hstill : (∀ v, ¬ s.Fires v e) → e.rewired s.kernel = s.kernel →
      (∀ f, s.May e f → f.Still) → (s'.kernel.tcb p).tap i =
        if s.Rings e p i then ((e.rewired s.kernel).tcb p).tap i ||| 0x8000
        else ((e.rewired s.kernel).tcb p).tap i := by
    intro hf hk hA
    rw [hk, tap_effects hs.sound heff hA p, if_neg]
    intro hr
    obtain ⟨q, hq, -⟩ := hr
    exact hf _ hq
  cases e with
  | run r => exact hstill (fun _ h => h) rfl fun _ h => h.elim
  | ret => exact hstill (fun _ h => h) rfl fun _ h => h.elim
  | yield =>
    refine hstill (fun _ h => h) rfl fun f hf => ?_
    cases f with
    | flag =>
      obtain ⟨⟨q, hq, -⟩, -⟩ := hf
      cases hq
    | wake =>
      obtain ⟨⟨q, hq, -⟩, -⟩ := hf
      cases hq
    | unwait =>
      obtain ⟨⟨q, hq, -⟩, -⟩ := hf
      cases hq
    | setTap => exact hf.elim
    | _ => trivial
  | interrupt iv er cr2 =>
    by_cases hq : ∃ q, faultQueue iv = some q
    · obtain ⟨q, hq⟩ := hq
      obtain ⟨k₂, he, h0, hstate, htable, hk⟩ := step_fault hs hst hq
      have hfires : s.Fires q.vector (.interrupt iv er cr2) := ⟨q, hq, rfl⟩
      have hs₂ := hs.sound.effects he
      have htap : ∀ p, ((enqueue k₂ q s.active).tcb p).tap = (s.kernel.tcb p).tap := by
        intro p
        rw [enqueue_eq]
        refine tap_effects hs.sound he (fun f hf => ?_) p
        cases f with
        | regs => trivial
        | unload => trivial
        | _ => exact hf.elim
      have hpage : (enqueue k₂ q s.active).vectorPageTable = s.kernel.vectorPageTable := by
        have hpage₂ : k₂.vectorPageTable = s.kernel.vectorPageTable :=
          pages_effects hs.sound he fun _ _ _ hf => hf
        rw [enqueue_eq]
        exact hpage₂
      obtain ⟨run, free, hc⟩ := hs.sound
      obtain ⟨hl, hst⟩ := hc.active.resolve_left hs.active
      obtain ⟨hs₃, -, hfire⟩ := notify_effects (t := s.active) (q := q) hs₂ h0
        (by rwa [Kernel.Live, htable]) (by rwa [hstate])
      have hs₄ := hs₃.effects hfire
      have hlast : (s'.kernel.tcb p).tap =
          ((interruptVectorFire (enqueue k₂ q s.active) q.vector).tcb p).tap := by
        rw [hk]
        refine tap_effects hs₄ (schedule_effects hs₄).1 (fun f hf => ?_) p
        cases f with
        | ready => trivial
        | unload => trivial
        | dispatch => trivial
        | inject => trivial
        | _ => exact hf.elim
      have hiff : s.Rings (.interrupt iv er cr2) p i ↔
          (enqueue k₂ q s.active).Rings q.vector p i :=
        (Sys.rings_iff hfires ⟨q, rfl⟩).trans (Kernel.rings_congr hpage (htap p)).symm
      rw [hlast]
      change _ = if _ then (s.kernel.tcb p).tap i ||| 0x8000 else (s.kernel.tcb p).tap i
      rw [← htap p]
      split_ifs with hr
      · exact fire_tap_of_rings (hiff.mp hr)
      · exact fire_tap_of_not_rings fun hc => hr (hiff.mpr hc)
    · refine hstill (fun v hv => hq (hv.imp fun _ => And.left)) rfl fun f hf => ?_
      cases f with
      | flag => exact absurd (hf.1.imp fun _ => And.left) hq
      | wake => exact absurd (hf.1.imp fun _ => And.left) hq
      | unwait => exact absurd (hf.1.imp fun _ => And.left) hq
      | setTap => exact hf.elim
      | _ => trivial
  | call c =>
    obtain ⟨hcall, -, r, hb⟩ := hs.step_call hst
    by_cases hset : ∃ index vec, c = .interruptSetTap index vec
    · obtain ⟨index, vec, rfl⟩ := hset
      have hkern : (apilogicInterruptSetTap s.kernel index vec).2 = s'.kernel :=
        congrArg Prod.snd (Option.some.inj hb)
      rw [← hkern]
      exact setTap_step hs p i
    · by_cases hreset : ∃ vec, c = .interruptReset vec
      · obtain ⟨vec, rfl⟩ := hreset
        have hkern : apilogicInterruptReset s.kernel vec = s'.kernel :=
          congrArg Prod.snd (Option.some.inj hb)
        rw [← hkern]
        exact resetTap_step hs p i
      · by_cases hexit : c = .threadExit
        · subst hexit
          have hkern : apilogicThreadExit s.kernel = s'.kernel :=
            congrArg Prod.snd (Option.some.inj hb)
          rw [← hkern]
          exact exitTap_step p i
        · have hfires : ∀ v, ¬ c.Fires s.kernel v := by
            intro v hv
            cases c with
            | threadExit => exact hexit rfl
            | interruptReset vec => exact hreset ⟨vec, rfl⟩
            | interruptSetTap index vec => exact hset ⟨index, vec, rfl⟩
            | _ => exact hv
          refine hstill hfires ?_ fun f hf => ?_
          · cases c with
            | interruptReset vec => exact absurd ⟨vec, rfl⟩ hreset
            | interruptSetTap index vec => exact absurd ⟨index, vec, rfl⟩ hset
            | _ => rfl
          · cases f with
            | flag => exact absurd hf.1 (hfires _)
            | wake => exact absurd hf.1 (hfires _)
            | unwait => exact absurd hf.1 (hfires _)
            | setTap => exact hf.2.elim hset hreset
            | _ => trivial

end Step
end Pinion64
