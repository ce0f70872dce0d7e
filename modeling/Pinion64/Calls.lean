import Pinion64.Bodies

/-! The API bodies as sequences of elementary steps. -/
namespace Pinion64
open Intrusive Transition

variable {P : Platform} {k k' : Kernel} {e : Effect}

/-- The vector that a call fires. A reset fires only for a queue that holds a report. -/
def Call.Fires (k : Kernel) (v : BitVec 16) : Call → Prop
  | threadExit => v = pinionInterruptZombie
  | interruptReset vec => v = vec.setWidth 16 ∧
    (∃ i, ((k.tcb k.activeTcb).tap i &&& ~~~0xC000).setWidth 32 = vec) ∧
    ∃ q : TcbQueue, v = q.vector ∧ k.queueHead q ≠ 0
  | interruptSetTap index vec => v = vec.setWidth 16 ∧ (index.toNat < 4 ∧ vec &&& 0xC000 = 0) ∧
    ∃ q : TcbQueue, v = q.vector ∧ k.queueHead q ≠ 0
  | _ => False

/-- The report queue that a call fetches from. -/
def Call.Fetches (q : TcbQueue) : Call → Prop
  | threadGet q' => q' = q
  | faultGetPagefault info => info ≠ 0 ∧ q = .pagefault
  | faultGetMiscfault info => info ≠ 0 ∧ q = .miscfault
  | faultGetZombie info => info ≠ 0 ∧ q = .zombie
  | _ => False

/-- The thread that an argument of pause or resume names. -/
def target (k : Kernel) (thread : BitVec 32) : Ptr := tcbGet k (selfOr k thread)

/-- The steps of a call, told from the state in which it is made. -/
def Call.May (k : Kernel) (c : Call) : Effect → Prop
  | .ready t => ∃ th, c = .threadResume th ∧ t = target k th ∧ k.state t = tcbStateSuspended
  | .block t => ∃ th, c = .threadPause th ∧ t = target k th
  | .shift t s =>
    (∃ th, c = .threadPause th ∧ t = target k th ∧
      (k.state t = tcbStateWaiting ∧ s = tcbStateSuspendedWaiting ∨
        k.state t = tcbStateRunning ∧ s = tcbStateSuspended)) ∨
    (∃ th, c = .threadResume th ∧ t = target k th ∧
      k.state t = tcbStateSuspendedWaiting ∧ s = tcbStateWaiting) ∨
    (c = .threadExit ∧ t = k.activeTcb ∧ s = tcbStateSuspended) ∨
    (c = .interruptWait ∧ t = k.activeTcb ∧ s = tcbStateWaiting)
  | .report q t => c = .threadExit ∧ q = .zombie ∧ t = k.activeTcb
  | .fetch q => c.Fetches q
  | .flag v t j => c.Fires k v ∧ (t = k.activeTcb ∨ Fired k v t j)
  | .wake v t j => c.Fires k v ∧ Fired k v t j ∧ k.state t = tcbStateWaiting
  | .unwait v t j => c.Fires k v ∧ Fired k v t j ∧ k.state t = tcbStateSuspendedWaiting
  | .setTap t _ _ =>
    t = k.activeTcb ∧ ((∃ i v, c = .interruptSetTap i v) ∨ ∃ v, c = .interruptReset v)
  | .setSlot _ _ t => (∃ i v, c = .interruptSetTap i v) ∧ (t = 0 ∨ t = k.activeTcb)
  | .create => c = .threadCreate
  | .reap t => ∃ th, c = .threadReap th ∧ t = tcbGet k th
  | .regs t .. => ∃ th cls st s, c = .threadPushState th cls st s ∧ t = tcbGet k th ∧
      (k.tcb t).Stopped
  | .paging _ => ∃ v p f n, c = .pageSet v p f n
  | .unload => False
  | .dispatch _ => False
  | .inject => False

/-- What a firing inside a call does, told from the state before the call: the calling thread
has only its taps, its routes and its state changed by then, and it does not wait. -/
theorem FireMay.before {k₁ : Kernel} {c : Call} {vec : BitVec 16} (hc : c.Fires k vec)
    (hr : ∀ t, t ≠ k.activeTcb → k₁.Routed vec t → k.Routed vec t)
    (ht : ∀ t, t ≠ k.activeTcb → (k₁.tcb t).tap = (k.tcb t).tap)
    (hs : ∀ t, t ≠ k.activeTcb → k₁.state t = k.state t)
    (ha : k₁.state k.activeTcb ≠ tcbStateWaiting ∧
      k₁.state k.activeTcb ≠ tcbStateSuspendedWaiting)
    (hm : FireMay k₁ vec e) : c.May k e := by
  have hfired : ∀ t j, t ≠ k.activeTcb → Fired k₁ vec t j → Fired k vec t j := by
    rintro t j hne ⟨h1, h2, h3⟩
    refine ⟨h1, hr t hne h2, ?_⟩
    rw [← tapOf_congr (ht t hne)]
    exact h3
  cases e with
  | flag v t j =>
    obtain ⟨rfl, hf⟩ := hm
    refine ⟨hc, ?_⟩
    by_cases hne : t = k.activeTcb
    · exact Or.inl hne
    · exact Or.inr (hfired t j hne hf)
  | wake v t j =>
    obtain ⟨rfl, hf, hw⟩ := hm
    have hne : t ≠ k.activeTcb := by
      rintro rfl
      exact ha.1 hw
    exact ⟨hc, hfired t j hne hf, (hs t hne).symm.trans hw⟩
  | unwait v t j =>
    obtain ⟨rfl, hf, hw⟩ := hm
    have hne : t ≠ k.activeTcb := by
      rintro rfl
      exact ha.2 hw
    exact ⟨hc, hfired t j hne hf, (hs t hne).symm.trans hw⟩
  | _ => exact hm.elim

section Fetch

/-- The kernel that the fetching calls leave behind, whatever they answer. -/
theorem apilogicFaultGetPagefault_kernel (k : Kernel) (info : Ptr) :
    (apilogicFaultGetPagefault k info).2 =
      if info = 0 then k else (getQueued k .pagefault).2 := by
  unfold apilogicFaultGetPagefault getPagefault
  split_ifs
  · rfl
  · dsimp only
    split_ifs <;> rfl

theorem apilogicFaultGetMiscfault_kernel (k : Kernel) (info : Ptr) :
    (apilogicFaultGetMiscfault k info).2 =
      if info = 0 then k else (getQueued k .miscfault).2 := by
  unfold apilogicFaultGetMiscfault getMiscfault
  split_ifs
  · rfl
  · dsimp only
    split_ifs <;> rfl

theorem apilogicFaultGetZombie_kernel (k : Kernel) (info : Ptr) :
    (apilogicFaultGetZombie k info).2 = if info = 0 then k else (getQueued k .zombie).2 := by
  unfold apilogicFaultGetZombie getZombie
  split_ifs
  · rfl
  · dsimp only
    split_ifs <;> rfl

theorem apilogicThreadGet_kernel (k : Kernel) (q : TcbQueue) :
    (apilogicThreadGet q k).2 = (getQueued k q).2 := by
  unfold apilogicThreadGet
  dsimp only
  split_ifs <;> rfl

end Fetch

/-- An exit in its steps: the caller is suspended, its report queued, and the vector fires. -/
structure Exits (P : Platform) (k k₁ k₂ : Kernel) : Prop where
  shift : Enabled P k (.shift k.activeTcb tcbStateSuspended)
  suspended : k.setState k.activeTcb tcbStateSuspended = k₁
  report : Enabled P k₁ (.report .zombie k.activeTcb)
  queued : enqueue k₁ .zombie k.activeTcb = k₂
  state : ∀ p, k₂.state p = if p = k.activeTcb then tcbStateSuspended else k.state p
  fire : Effects P (FireMay k₂ pinionInterruptZombie) k₂ (apilogicThreadExit k)

/-- A thread that makes a call. -/
structure Caller (P : Platform) (k : Kernel) : Prop where
  sound : Sound P k
  vectors : Vectors k
  live : k.Live k.activeTcb
  running : k.state k.activeTcb = tcbStateRunning

namespace Caller

variable (h : Caller P k)
include h

theorem threadPause (thread : BitVec 32) :
    ∃ b k', apilogicThreadPause k thread = some (b, k') ∧
      Effects P ((Call.threadPause thread).May k) k k' := by
  have hst : ∀ t, (k.tcb t).state = k.state t := fun _ => rfl
  simp only [apilogicThreadPause, hst]
  change ∃ b k', (if target k thread = 0 then _ else _) = some (b, k') ∧ _
  split_ifs with h0 hs hw hq hr
  · exact ⟨_, _, rfl, .refl⟩
  · exact ⟨_, _, rfl, .refl⟩
  · have hl : k.Live (target k thread) := Coherent.get_live h0
    exact ⟨_, _, rfl, .single (e := .shift (target k thread) tcbStateSuspendedWaiting)
      ⟨hl, Or.inl ⟨hw, rfl⟩⟩ (Or.inl ⟨thread, rfl, rfl, Or.inl ⟨hw, rfl⟩⟩) rfl⟩
  · have hl : k.Live (target k thread) := Coherent.get_live h0
    obtain ⟨n, hd, tl, hrem, -⟩ := h.sound.rem hl hq
    have hrem' : schedulerRemTcb k (tcbGet k (selfOr k thread)) = some (0, k.relink n hd tl) := hrem
    simp only [hrem']
    exact ⟨_, _, rfl, .single (e := .block (target k thread)) ⟨hl, hq⟩ ⟨thread, rfl, rfl⟩
      (by rw [Effect.apply, hrem]; rfl)⟩
  · have hl : k.Live (target k thread) := Coherent.get_live h0
    exact ⟨_, _, rfl, .single (e := .shift (target k thread) tcbStateSuspended)
      ⟨hl, Or.inr (Or.inr (Or.inl ⟨hr, rfl⟩))⟩ (Or.inl ⟨thread, rfl, rfl, Or.inr ⟨hr, rfl⟩⟩) rfl⟩
  · exact ⟨_, _, rfl, .refl⟩

theorem threadResume (thread : BitVec 32) :
    Effects P ((Call.threadResume thread).May k) k (apilogicThreadResume k thread).2 := by
  have hst : ∀ t, (k.tcb t).state = k.state t := fun _ => rfl
  simp only [apilogicThreadResume, hst]
  change Effects P _ k (if target k thread = 0 then _ else _ : Bool × Kernel).2
  split_ifs with h0 hs hsw
  · exact .refl
  · have hl : k.Live (target k thread) := Coherent.get_live h0
    refine .single (e := .ready (target k thread)) ⟨Or.inl hl, ?_, ?_⟩ ⟨thread, rfl, rfl, hs⟩ rfl
    · intro hq
      exact absurd (hs.symm.trans hq) (by decide)
    · intro ha
      have hr := h.running
      rw [ha] at hr
      exact absurd (hs.symm.trans hr) (by decide)
  · have hl : k.Live (target k thread) := Coherent.get_live h0
    exact .single (e := .shift (target k thread) tcbStateWaiting)
      ⟨hl, Or.inr (Or.inl ⟨hsw, rfl⟩)⟩ (Or.inr (Or.inl ⟨thread, rfl, rfl, hsw, rfl⟩)) rfl
  · exact .refl

theorem exits : ∃ k₁ k₂, Exits P k k₁ k₂ := by
  have hen1 : Enabled P k (.shift k.activeTcb tcbStateSuspended) :=
    ⟨h.live, Or.inr (Or.inr (Or.inl ⟨h.running, rfl⟩))⟩
  have hs1 : Sound P (k.setState k.activeTcb tcbStateSuspended) :=
    h.sound.effects (A := fun _ => True) (.single hen1 trivial rfl)
  have hst1 := k.setState_state k.activeTcb
  have hen2 : Enabled P (k.setState k.activeTcb tcbStateSuspended) (.report .zombie k.activeTcb) := by
    refine ⟨Or.inl h.live, ?_⟩
    rw [hst1, if_pos rfl]
    decide
  obtain ⟨k₂, hk₂⟩ : ∃ k₂, enqueue (k.setState k.activeTcb tcbStateSuspended) .zombie
    k.activeTcb = k₂ := ⟨_, rfl⟩
  have hs2 : Sound P k₂ :=
    hs1.effects (A := fun _ => True) (.single hen2 trivial (congrArg some hk₂))
  have hst2 : ∀ p, k₂.state p = if p = k.activeTcb then tcbStateSuspended else k.state p := by
    intro p
    rw [← hk₂, enqueue_eq]
    exact hst1 p _
  have ha2 : k₂.activeTcb = k.activeTcb :=
    (Effect.spec hs1 hen2 (congrArg some hk₂)).active.trans (Effect.spec h.sound hen1 rfl).active
  have hpage : vectorPage pinionInterruptZombie < 128 := by decide
  have hfire := fire_effects hs2 hpage (Or.inr (by rw [ha2, hst2, if_pos rfl]; decide))
  refine ⟨_, k₂, hen1, rfl, hen2, hk₂, hst2, ?_⟩
  rw [← hk₂] at hfire ⊢
  exact hfire

theorem threadExit : Effects P (Call.threadExit.May k) k (apilogicThreadExit k) := by
  obtain ⟨k₁, k₂, he⟩ := h.exits
  have h1 : Effects P (Call.threadExit.May k) k k₁ :=
    .single he.shift (Or.inr (Or.inr (Or.inl ⟨rfl, rfl, rfl⟩))) (congrArg some he.suspended)
  have h2 : Effects P (Call.threadExit.May k) k k₂ :=
    .tail h1 ⟨he.report, rfl, rfl, rfl⟩ (congrArg some he.queued)
  have hsp1 := Effect.spec h.sound he.shift (congrArg some he.suspended)
  have hsp2 := Effect.spec (h.sound.effects h1) he.report (congrArg some he.queued)
  have hpages : k₂.vectorPageTable = k.vectorPageTable := hsp2.pages.trans hsp1.pages
  refine h2.trans (he.fire.weaken fun e hm => hm.before rfl (fun t _ hr => ?_) (fun t _ => ?_)
    (fun t hne => ?_) ?_)
  · rwa [Kernel.Routed, Kernel.routeOf, hpages] at hr
  · exact (hsp2.tap t).trans (hsp1.tap t)
  · rw [he.state, if_neg hne]
  · rw [he.state, if_pos rfl]
    decide

theorem threadReap (thread : BitVec 32) :
    Effects P ((Call.threadReap thread).May k) k (apilogicThreadReap k thread).2 := by
  simp only [apilogicThreadReap]
  split_ifs with h0 hs
  · exact .refl
  · exact .refl
  · have hs' : k.state (tcbGet k thread) = tcbStateSuspended := not_not.mp hs
    refine .single (e := .reap (tcbGet k thread)) ⟨Coherent.get_live h0, hs', ?_⟩
      ⟨thread, rfl, rfl⟩ rfl
    intro ha
    have hr := h.running
    rw [ha] at hr
    exact absurd (hs'.symm.trans hr) (by decide)

theorem interruptWait : Effects P (Call.interruptWait.May k) k (apilogicInterruptWait k).2 := by
  simp only [apilogicInterruptWait]
  cases hf : slots.find? fun i => (k.tcb k.activeTcb).tap i &&& 0x8000 ≠ 0 with
  | some i => exact .refl
  | none =>
    refine .single (e := .shift k.activeTcb tcbStateWaiting)
      ⟨h.live, Or.inr (Or.inr (Or.inr ⟨h.running, rfl, fun j => ?_⟩))⟩
      (Or.inr (Or.inr (Or.inr ⟨rfl, rfl, rfl⟩))) rfl
    have hall := List.find?_eq_none.mp hf j (mem_slots j)
    by_contra hc
    exact hall (decide_eq_true hc)

/-- The reset with which set_tap and interrupt_reset end. -/
theorem reset {k₁ : Kernel} {c : Call} {vec : BitVec 32} (h1 : Effects P (c.May k) k k₁)
    (hc : ∀ q : TcbQueue, vec.setWidth 16 = q.vector → k.queueHead q ≠ 0 →
      c.Fires k (vec.setWidth 16))
    (hlt : vectorPage (vec.setWidth 16) < 128)
    (hh : k₁.queueHead = k.queueHead) (ha : k₁.activeTcb = k.activeTcb)
    (hr : ∀ v t, t ≠ k.activeTcb → k₁.Routed v t → k.Routed v t)
    (ht : ∀ t, t ≠ k.activeTcb → (k₁.tcb t).tap = (k.tcb t).tap)
    (hs : ∀ t, k₁.state t = k.state t) :
    Effects P (c.May k) k (interruptVectorReset k₁ (vec.setWidth 16)) := by
  have hv := h.vectors.effects h.sound h1
  rcases interruptVectorReset_cases hv hlt with he | ⟨q, hq, hne, he⟩
  · rw [he]
    exact h1
  · rw [he]
    have hrun : k₁.state k.activeTcb = tcbStateRunning := (hs _).trans h.running
    have hfire := fire_effects (h.sound.effects h1) hlt
      (Or.inr (by rw [ha, hrun]; decide))
    refine h1.trans (hfire.weaken fun e he => he.before (hc q hq (hh ▸ hne)) (hr _) ht
      (fun t _ => hs t) ?_)
    rw [hrun]
    decide

end Caller

section Routes

/-- A block that a slot write does not enter is routed afterwards only if it was before. -/
theorem routed_setRoute {v w : BitVec 16} {i : Fin 4} {x t : Ptr}
    (h : (k.setRoute v i x).Routed w t) (ht : t ≠ x) : k.Routed w t := by
  obtain ⟨hne, r, hr, j, rfl⟩ := h
  rw [Kernel.setRoute_routeOf] at hr
  split_ifs at hr
  · obtain ⟨r₀, hr₀, rfl⟩ := Option.map_eq_some_iff.mp hr
    have hj : j ≠ i := by
      rintro rfl
      exact ht (Function.update_self ..)
    rw [Function.update_of_ne hj] at hne ⊢
    exact ⟨hne, r₀, hr₀, j, rfl⟩
  · exact ⟨hne, r, hr, j, rfl⟩

theorem interruptRemoveRoute_cases (k : Kernel) (t : Ptr) (v : BitVec 16) :
    interruptRemoveRoute k t v = k ∨ ∃ i, interruptRemoveRoute k t v = k.setRoute v i 0 := by
  unfold interruptRemoveRoute
  cases k.routeOf v with
  | none => exact Or.inl rfl
  | some r =>
    cases h : slots.find? fun i => r i = t with
    | none =>
      simp only [h]
      exact Or.inl trivial
    | some i =>
      simp only [h]
      exact Or.inr ⟨i, rfl⟩

theorem interruptAddRoute_cases (k : Kernel) (t : Ptr) (v : BitVec 16) :
    interruptAddRoute k t v = k ∨ ∃ i, interruptAddRoute k t v = k.setRoute v i t := by
  unfold interruptAddRoute
  cases k.routeOf v with
  | none => exact Or.inl rfl
  | some r =>
    cases h : slots.find? fun i => r i = 0 with
    | none =>
      simp only [h]
      exact Or.inl trivial
    | some i =>
      simp only [h]
      exact Or.inr ⟨i, rfl⟩

theorem low_eq_self {v : BitVec 16} (hv : v &&& 0xC000 = 0) : v &&& 0x3FFF = v := by
  have h : v &&& (0xC000 ||| 0x3FFF) = v := by
    rw [show (0xC000 : BitVec 16) ||| 0x3FFF = BitVec.allOnes 16 by decide, BitVec.and_allOnes]
  rw [BitVec.and_or_distrib_left, hv] at h
  simpa using h

theorem vectorPage_lt {v : BitVec 16} (h : v &&& 0xC000 = 0) : vectorPage v < 128 := by
  have hlow : (v &&& 0x3FFF).toNat < 2 ^ 14 := by
    have hle : (v &&& 0x3FFF).toNat ≤ (0x3FFF : BitVec 16).toNat := by
      rw [BitVec.toNat_and]
      exact Nat.and_le_right
    simp only [BitVec.reduceToNat] at hle
    omega
  rw [low_eq_self h] at hlow
  rw [vectorPage_toNat]
  omega

/-- The kernel before the reset of a set_tap: routes and taps of the calling thread only have
changed. -/
structure TapFrame (k k' : Kernel) : Prop where
  heads : k'.queueHead = k.queueHead
  active : k'.activeTcb = k.activeTcb
  routed : ∀ v t, t ≠ k.activeTcb → k'.Routed v t → k.Routed v t
  tap : ∀ t, t ≠ k.activeTcb → (k'.tcb t).tap = (k.tcb t).tap
  state : ∀ t, k'.state t = k.state t
  table : k'.tableEntry = k.tableEntry

theorem TapFrame.refl (k : Kernel) : TapFrame k k :=
  ⟨rfl, rfl, fun _ _ _ h => h, fun _ _ => rfl, fun _ => rfl, rfl⟩

theorem TapFrame.setRoute {k₁ : Kernel} (h : TapFrame k k₁) (v : BitVec 16) (i : Fin 4) {x : Ptr}
    (hx : x = 0 ∨ x = k.activeTcb) : TapFrame k (k₁.setRoute v i x) where
  heads := h.heads
  active := h.active
  routed w t hne hr := by
    refine h.routed w t hne (routed_setRoute hr ?_)
    rcases hx with rfl | rfl
    · exact hr.1
    · exact hne
  tap := h.tap
  state := h.state
  table := h.table

theorem TapFrame.setTap {k₁ : Kernel} (h : TapFrame k k₁) (i : Fin 4) (v : BitVec 16) :
    TapFrame k (k₁.updTcb k.activeTcb fun b => { b with tap := Function.update b.tap i v }) where
  heads := h.heads
  active := h.active
  routed := h.routed
  tap t hne := (congrArg Tcb.tap (k₁.updTcb_of_ne _ t _ hne)).trans (h.tap t hne)
  state t := (k₁.updTcb_proj k.activeTcb t
    (fun b => { b with tap := Function.update b.tap i v }) Tcb.state fun _ => rfl).trans (h.state t)
  table := h.table

end Routes

namespace Caller

variable (h : Caller P k)
include h

theorem reset_of_frame {k₁ : Kernel} {c : Call} {vec : BitVec 32}
    (h1 : Effects P (c.May k) k k₁) (hf : TapFrame k k₁)
    (hc : ∀ q : TcbQueue, vec.setWidth 16 = q.vector → k.queueHead q ≠ 0 →
      c.Fires k (vec.setWidth 16))
    (hlt : vectorPage (vec.setWidth 16) < 128) :
    Effects P (c.May k) k (interruptVectorReset k₁ (vec.setWidth 16)) :=
  h.reset h1 hc hlt hf.heads hf.active hf.routed hf.tap hf.state

theorem interruptReset (vec : BitVec 32) :
    Effects P ((Call.interruptReset vec).May k) k (apilogicInterruptReset k vec) := by
  simp only [apilogicInterruptReset]
  cases hf : slots.find? fun i =>
      ((k.tcb k.activeTcb).tap i &&& ~~~0xC000).setWidth 32 = vec with
  | none => exact .refl
  | some i =>
    have hi : ((k.tcb k.activeTcb).tap i &&& ~~~0xC000).setWidth 32 = vec := by
      simpa using List.find?_some hf
    have hlow : vec.setWidth 16 = (k.tcb k.activeTcb).tap i &&& ~~~0xC000 := by
      rw [← hi, BitVec.setWidth_setWidth_of_le _ (by decide), BitVec.setWidth_eq]
    have hlt : vectorPage (vec.setWidth 16) < 128 := by
      apply vectorPage_lt
      rw [hlow, BitVec.and_assoc]
      simp
    have hen : Enabled P k (.setTap k.activeTcb i ((k.tcb k.activeTcb).tap i &&& ~~~0x8000)) := by
      refine ⟨h.live, ?_⟩
      rw [BitVec.and_assoc]
      simp
    exact h.reset_of_frame (.single hen ⟨rfl, Or.inr ⟨vec, rfl⟩⟩ rfl)
      ((TapFrame.refl k).setTap i _) (fun q hq hne => ⟨rfl, ⟨i, hi⟩, q, hq, hne⟩) hlt

theorem interruptSetTap (index vec : BitVec 32) :
    Effects P ((Call.interruptSetTap index vec).May k) k
      (apilogicInterruptSetTap k index vec).2 := by
  unfold apilogicInterruptSetTap
  by_cases hidx : index.toNat < 4
  · rw [dif_pos hidx]
    split_ifs with hvec
    · exact .refl
    · have hv0 : vec &&& 0xC000 = 0 := not_not.mp hvec
      have hw : (vec.setWidth 16) &&& 0xC000 = 0 := by
        have := congrArg (BitVec.setWidth 16) hv0
        rwa [BitVec.setWidth_and] at this
      generalize tapIndex index hidx = i
      -- the old tap leaves its route
      obtain ⟨k₁, hk₁, h1, hf1⟩ : ∃ k₁, (if (k.tcb k.activeTcb).tap i &&& 0x3FFF ≠ 0 then
          interruptRemoveRoute k k.activeTcb ((k.tcb k.activeTcb).tap i) else k) = k₁ ∧
          Effects P ((Call.interruptSetTap index vec).May k) k k₁ ∧ TapFrame k k₁ := by
        refine ⟨_, rfl, ?_⟩
        split_ifs
        · rcases interruptRemoveRoute_cases k k.activeTcb ((k.tcb k.activeTcb).tap i) with
            he | ⟨j, he⟩
          · rw [he]
            exact ⟨.refl, .refl k⟩
          · rw [he]
            exact ⟨.single (e := .setSlot _ j 0) (Or.inl rfl) ⟨⟨index, vec, rfl⟩, Or.inl rfl⟩ rfl,
              (TapFrame.refl k).setRoute _ j (Or.inl rfl)⟩
        · exact ⟨.refl, .refl k⟩
      simp only [hk₁]
      -- the new tap is entered
      have hlive1 : k₁.Live k.activeTcb := by
        have hl := h.live
        rwa [Kernel.Live, ← hf1.table] at hl
      have hen2 : Enabled P k₁ (.setTap k.activeTcb i (vec.setWidth 16)) := by
        refine ⟨hlive1, ?_⟩
        rw [show (0x8000 : BitVec 16) = 0xC000 &&& 0x8000 by decide, ← BitVec.and_assoc, hw]
        simp
      have h2 : Effects P ((Call.interruptSetTap index vec).May k) k (k₁.updTcb k.activeTcb fun b =>
          { b with tap := Function.update b.tap i (vec.setWidth 16) }) :=
        .tail h1 (e := .setTap k.activeTcb i (vec.setWidth 16))
          ⟨hen2, rfl, Or.inl ⟨index, vec, rfl⟩⟩ rfl
      have hf2 := hf1.setTap i (vec.setWidth 16)
      generalize hk₂ : (k₁.updTcb k.activeTcb fun b =>
        { b with tap := Function.update b.tap i (vec.setWidth 16) }) = k₂ at h2 hf2 ⊢
      have htap : (k₂.tcb k.activeTcb).tap i = vec.setWidth 16 := by
        rw [← hk₂, Kernel.updTcb_self]
        exact Function.update_self ..
      rw [htap]
      -- and its route
      have h3 : Effects P ((Call.interruptSetTap index vec).May k) k
          (interruptAddRoute k₂ k.activeTcb (vec.setWidth 16)) ∧
          TapFrame k (interruptAddRoute k₂ k.activeTcb (vec.setWidth 16)) ∧
          ((interruptAddRoute k₂ k.activeTcb (vec.setWidth 16)).tcb k.activeTcb).tap i =
            vec.setWidth 16 := by
        rcases interruptAddRoute_cases k₂ k.activeTcb (vec.setWidth 16) with he | ⟨j, he⟩
        · rw [he]
          exact ⟨h2, hf2, htap⟩
        · rw [he]
          have hlive2 : k₂.Live k.activeTcb := by
            have hl := h.live
            rwa [Kernel.Live, ← hf2.table] at hl
          exact ⟨.tail h2 (e := .setSlot (vec.setWidth 16) j k.activeTcb)
            ⟨Or.inr hlive2, ⟨index, vec, rfl⟩, Or.inr rfl⟩ rfl, hf2.setRoute _ j (Or.inr rfl), htap⟩
      obtain ⟨h3, hf3, htap3⟩ := h3
      rw [htap3]
      exact h.reset_of_frame h3 hf3 (fun q hq hne => ⟨rfl, ⟨hidx, hv0⟩, q, hq, hne⟩)
        (vectorPage_lt hw)
  · rw [dif_neg hidx]
    exact .refl

omit h in
theorem threadPushState (th cls : BitVec 32) (st : Ptr) (s : ThreadState) :
    Effects P ((Call.threadPushState th cls st s).May k) k
      (apilogicThreadPushState k th cls st s).2 := by
  simp only [apilogicThreadPushState]
  split_ifs with h1 h2 h3
  · exact .refl
  · exact .refl
  · exact .single (e := .regs (tcbGet k th) (pushRegs (k.tcb (tcbGet k th)).regs cls s)
      (k.tcb (tcbGet k th)).ivect (k.tcb (tcbGet k th)).saved (k.tcb (tcbGet k th)).error)
      trivial ⟨th, cls, st, s, rfl, rfl, h3⟩ rfl
  · exact .refl

omit h in
theorem threadGet (q : TcbQueue) :
    Effects P ((Call.threadGet q).May k) k (apilogicThreadGet q k).2 := by
  rw [apilogicThreadGet_kernel]
  exact .single (e := .fetch q) trivial rfl rfl

omit h in
theorem faultGetPagefault (info : Ptr) :
    Effects P ((Call.faultGetPagefault info).May k) k (apilogicFaultGetPagefault k info).2 := by
  rw [apilogicFaultGetPagefault_kernel]
  split_ifs with h0
  · exact .refl
  · exact .single (e := .fetch .pagefault) trivial ⟨h0, rfl⟩ rfl

omit h in
theorem faultGetMiscfault (info : Ptr) :
    Effects P ((Call.faultGetMiscfault info).May k) k (apilogicFaultGetMiscfault k info).2 := by
  rw [apilogicFaultGetMiscfault_kernel]
  split_ifs with h0
  · exact .refl
  · exact .single (e := .fetch .miscfault) trivial ⟨h0, rfl⟩ rfl

omit h in
theorem faultGetZombie (info : Ptr) :
    Effects P ((Call.faultGetZombie info).May k) k (apilogicFaultGetZombie k info).2 := by
  rw [apilogicFaultGetZombie_kernel]
  split_ifs with h0
  · exact .refl
  · exact .single (e := .fetch .zombie) trivial ⟨h0, rfl⟩ rfl

/-- Every body ends, and its steps are among those that the call may take. -/
theorem body (c : Call) :
    ∃ r k', c.body P.pages k = some (r, k') ∧ Effects P (c.May k) k k' := by
  cases c with
  | threadYield => exact ⟨_, _, rfl, .refl⟩
  | threadCreate => exact ⟨_, _, rfl, .single (e := .create) trivial rfl rfl⟩
  | threadPause th =>
    obtain ⟨b, k', hk, he⟩ := h.threadPause th
    exact ⟨.bool b, k', by rw [Call.body, hk]; rfl, he⟩
  | threadResume th => exact ⟨_, _, rfl, h.threadResume th⟩
  | threadExit => exact ⟨_, _, rfl, h.threadExit⟩
  | threadReap th => exact ⟨_, _, rfl, h.threadReap th⟩
  | threadPullState th cls st s => exact ⟨_, _, rfl, .refl⟩
  | threadPushState th cls st s => exact ⟨_, _, rfl, threadPushState th cls st s⟩
  | interruptSetTap i v => exact ⟨_, _, rfl, h.interruptSetTap i v⟩
  | interruptGetTap i => exact ⟨_, _, rfl, .refl⟩
  | interruptReset v => exact ⟨_, _, rfl, h.interruptReset v⟩
  | interruptWait => exact ⟨_, _, rfl, h.interruptWait⟩
  | threadGet q => exact ⟨_, _, rfl, threadGet q⟩
  | faultGetPagefault info => exact ⟨_, _, rfl, faultGetPagefault info⟩
  | faultGetMiscfault info => exact ⟨_, _, rfl, faultGetMiscfault info⟩
  | faultGetZombie info => exact ⟨_, _, rfl, faultGetZombie info⟩
  | pageSet v p f n =>
    exact ⟨_, _, rfl, .single (e := .paging _) (apilogicPageSet_taken ..) ⟨v, p, f, n, rfl⟩ rfl⟩
  | pageGet v => exact ⟨_, _, rfl, .refl⟩

end Caller
end Pinion64
