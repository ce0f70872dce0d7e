import Pinion64.Reap
import Pinion64.Fire

/-! What a new thread takes over from the former owner of its block. -/
namespace Pinion64
open Intrusive Transition

/-- The taps are unset and no slot of a route names the block. -/
structure Kernel.Clean (k : Kernel) (t : Ptr) : Prop where
  taps : ∀ i, (k.tcb t).tap i = 0
  routes : ¬ k.InRoute t

variable {P : Platform} {k k' : Kernel} {s s' : Sys} {e : Event} {t x : Ptr}

theorem Sys.May.setTap {i : Fin 4} {v : BitVec 16} (h : s.May e (.setTap t i v)) :
    t = s.active ∧ ((∃ i v, e = .call (.interruptSetTap i v)) ∨
      ∃ v, e = .call (.interruptReset v)) := by
  cases e with
  | call c =>
    obtain ⟨ht, ⟨i, v, rfl⟩ | ⟨v, rfl⟩⟩ := h
    · exact ⟨ht, Or.inl ⟨i, v, rfl⟩⟩
    · exact ⟨ht, Or.inr ⟨v, rfl⟩⟩
  | _ => exact h.elim

theorem Sys.May.setSlot {i : Fin 4} {v : BitVec 16} (h : s.May e (.setSlot v i t)) :
    (∃ i v, e = .call (.interruptSetTap i v)) ∧ (t = 0 ∨ t = s.active) := by
  cases e with
  | call c =>
    obtain ⟨⟨i, v, rfl⟩, ht⟩ := h
    exact ⟨⟨i, v, rfl⟩, ht⟩
  | _ => exact h.elim

namespace Kernel.Clean

theorem congr (htap : (k'.tcb t).tap = (k.tcb t).tap)
    (hp : k'.vectorPageTable = k.vectorPageTable) : k'.Clean t ↔ k.Clean t := by
  have hr : k'.InRoute t ↔ k.InRoute t := by
    simp only [Kernel.InRoute, Kernel.Routed, Kernel.routeOf, hp]
  constructor
  · intro h
    exact ⟨fun i => (congrFun htap i).symm.trans (h.taps i), fun hc => h.routes (hr.mpr hc)⟩
  · intro h
    exact ⟨fun i => (congrFun htap i).trans (h.taps i), fun hc => h.routes (hr.mp hc)⟩

/-- A vector that fires meets no clean block. -/
theorem not_fired (h : k.Clean t) {vec : BitVec 16} {j : Fin 4} (hf : Fired k vec x j) : t ≠ x := by
  rintro rfl
  exact h.routes ⟨vec, hf.1, hf.2.1⟩

/-- Only a tap or a slot that is set to the block makes it unclean. -/
theorem effect {f : Effect} (h : k.Clean t) (hs : Sound P k) (he : Enabled P k f)
    (hk : f.apply P k = some k') (htap : ∀ i v, f ≠ .setTap t i v)
    (hslot : ∀ vec i, t ≠ 0 → f ≠ .setSlot vec i t) : k'.Clean t := by
  have hsp := Effect.spec hs he hk
  have hother : ∀ {x : Ptr} {j : Fin 4}, t ≠ x → ((k.fireTap x j).tcb t).tap = (k.tcb t).tap :=
    fun hne => congrArg Tcb.tap (Kernel.updTcb_of_ne _ _ _ _ hne)
  cases f with
  | flag vec x j => exact (congr ((hsp.tap t).trans (hother (h.not_fired he.1))) hsp.pages).mpr h
  | wake vec x j => exact (congr ((hsp.tap t).trans (hother (h.not_fired he.1))) hsp.pages).mpr h
  | unwait vec x j => exact (congr ((hsp.tap t).trans (hother (h.not_fired he.1))) hsp.pages).mpr h
  | setTap x i v =>
    have hne : t ≠ x := by
      rintro rfl
      exact htap i v rfl
    exact (congr ((hsp.tap t).trans (if_neg hne)) hsp.pages).mpr h
  | setSlot vec i x =>
    obtain rfl := Option.some.inj hk
    refine ⟨h.taps, fun ⟨w, hw, hr⟩ => h.routes ⟨w, hw, routed_setRoute hr ?_⟩⟩
    rintro rfl
    exact hslot vec i hr.1 rfl
  | _ => exact (congr (hsp.tap t) hsp.pages).mpr h

/-- A reset by a clean thread finds no tap but an unset one. -/
theorem reset (h : k.Clean k.activeTcb) (hv : Vectors k) (vec : BitVec 32) :
    (apilogicInterruptReset k vec).Clean k.activeTcb := by
  unfold apilogicInterruptReset
  cases hf : slots.find? fun i => ((k.tcb k.activeTcb).tap i &&& ~~~0xC000).setWidth 32 = vec with
  | none =>
    simp only [hf]
    exact h
  | some i =>
    have hvec : vec = 0 := by
      have hi := List.find?_some hf
      simp only [h.taps, decide_eq_true_eq] at hi
      rw [← hi]
      decide
    subst hvec
    simp only [hf]
    have hpage : ∀ k₁ : Kernel, k₁.vectorPageTable = k.vectorPageTable →
        interruptVectorReset k₁ ((0 : BitVec 32).setWidth 16) = k₁ := by
      intro k₁ hk₁
      have h0 := hv.other (vectorPage ((0 : BitVec 32).setWidth 16)) (by decide) (by decide)
        (by decide)
      rw [interruptVectorReset, hk₁, h0]
    rw [hpage _ (Kernel.updTcb_vectorPageTable ..)]
    refine ⟨fun j => ?_, h.routes⟩
    rw [Kernel.updTcb_self]
    dsimp only
    by_cases hj : j = i
    · rw [hj, Function.update_self, h.taps]
      decide
    · rw [Function.update_of_ne hj, h.taps]

/-- Every event but a set_tap of the thread itself leaves it clean. -/
theorem step (h : s.kernel.Clean t) (hs : SysSound P s) (hst : s.step P e = some s')
    (hne : ∀ i v, e = .call (.interruptSetTap i v) → t ≠ s.active) : s'.kernel.Clean t := by
  by_cases hr : t = s.active ∧ ∃ v, e = .call (.interruptReset v)
  · obtain ⟨rfl, v, rfl⟩ := hr
    obtain ⟨-, -, r, hb⟩ := hs.step_call hst
    have hk : apilogicInterruptReset s.kernel v = s'.kernel :=
      congrArg Prod.snd (Option.some.inj hb)
    exact hk ▸ reset h hs.vectors v
  · refine (hs.step hst).2.keep (I := fun k => k.Clean t) h hs.sound
      fun a f b ha hsa hen hm hb => ha.effect hsa hen hb ?_ ?_
    · rintro i v rfl
      obtain ⟨ht, ⟨i, v, he⟩ | ⟨v, he⟩⟩ := hm.setTap
      · exact hne i v he ht
      · exact hr ⟨ht, v, he⟩
    · rintro vec i h0 rfl
      obtain ⟨⟨i, v, he⟩, ht⟩ := hm.setSlot
      exact hne i v he (ht.resolve_left h0)

/-- A clean thread that waits gets no vector. -/
theorem wait (h : k.Clean t) (ha : k.activeTcb = t) : (apilogicInterruptWait k).1 = 0 := by
  have hnone : (slots.find? fun i => (k.tcb k.activeTcb).tap i &&& 0x8000 ≠ 0) = none := by
    rw [List.find?_eq_none]
    intro i _ hi
    rw [ha, h.taps] at hi
    exact absurd hi (by decide)
  rw [apilogicInterruptWait, hnone]

end Kernel.Clean

/-- What a firing vector changes of a thread that it meets. -/
def Tcb.notified (b : Tcb) : (Fin 4 → BitVec 16) × BitVec 16 × Regs := (b.tap, b.state, b.regs)

theorem notifyTap_notified (vec : BitVec 16) (hx : t ≠ x) :
    ((notifyTap vec k x).tcb t).notified = (k.tcb t).notified := by
  unfold notifyTap
  split_ifs with h0
  · rfl
  cases (k.tcb x).tapOf vec with
  | none => rfl
  | some j =>
    have hfire : (k.fireTap x j).tcb t = k.tcb t := Kernel.updTcb_of_ne _ _ _ _ hx
    simp only
    split_ifs
    · rw [Kernel.setRax, Kernel.updTcb_of_ne _ _ _ _ hx, Kernel.setState,
        Kernel.updTcb_of_ne _ _ _ _ hx]
      exact (Effect.schedulerPushTcb_proj (π := Tcb.notified) (fun _ _ => rfl) (k.fireTap x j) x
        t).trans (congrArg Tcb.notified hfire)
    · rw [Kernel.setRax, Kernel.updTcb_of_ne _ _ _ _ hx, Kernel.setState,
        Kernel.updTcb_of_ne _ _ _ _ hx]
      exact congrArg Tcb.notified hfire
    · exact congrArg Tcb.notified hfire

/-- A vector that fires neither wakes nor patches a clean thread. -/
theorem Kernel.Clean.fire (h : k.Clean t) {vec : BitVec 16} (hv : vectorPage vec < 128)
    (h0 : t ≠ 0) : ((interruptVectorFire k vec).tcb t).notified = (k.tcb t).notified := by
  rw [interruptVectorFire_eq]
  cases hr : k.routeOf vec with
  | none => rfl
  | some r =>
    have hne : ∀ i, t ≠ r i := by
      rintro i rfl
      exact h.routes ⟨vec, hv, h0, r, hr, i, rfl⟩
    suffices hl : ∀ (l : List (Fin 4)) (k₁ : Kernel),
        ((l.foldl (fun k i => notifyTap vec k (r i)) k₁).tcb t).notified =
          (k₁.tcb t).notified from hl slots k
    intro l
    induction l with
    | nil => exact fun _ => rfl
    | cons i l ih =>
      intro k₁
      rw [List.foldl_cons, ih]
      exact notifyTap_notified vec (hne i)

/-- A new thread is clean exactly if its block was. -/
theorem create_clean_iff (h : Sound P k) (hi : (apilogicThreadCreate P.pages k).1 ≠ 0) :
    (apilogicThreadCreate P.pages k).2.Clean (tcbGet (apilogicThreadCreate P.pages k).2
      (apilogicThreadCreate P.pages k).1) ↔ k.Clean (tcbAlloc P.pages k).1 := by
  obtain ⟨run, free, hc⟩ := h
  obtain ⟨t, free', -, hcr⟩ := hc.create
  rw [(hcr.found hi).1, ← hcr.alloc]
  exact Kernel.Clean.congr (hcr.step.tap_eq t) hcr.step.vectorPageTable

section Run

/-- The running system with the threads that have been created and have set no tap since. -/
structure Roster where
  sys : Sys
  untapped : List Ptr

namespace Roster

/-- The threads that have set no tap after an event. -/
def next (P : Platform) (r : Roster) : Event → List Ptr
  | .call .threadCreate =>
    let (i, k) := apilogicThreadCreate P.pages r.sys.kernel
    if i = 0 then r.untapped else tcbGet k i :: r.untapped
  | .call (.threadReap th) =>
    if (apilogicThreadReap r.sys.kernel th).1 then
      r.untapped.filter fun t => t ≠ tcbGet r.sys.kernel th
    else r.untapped
  | .call (.interruptSetTap _ _) => r.untapped.filter fun t => t ≠ r.sys.active
  | _ => r.untapped

def step (P : Platform) (r : Roster) (e : Event) : Option Roster :=
  (r.sys.step P e).map fun s => ⟨s, r.next P e⟩

/-- A thread is created in a clean block only. -/
def CleanCreate (P : Platform) (r : Roster) (e : Event) : Prop :=
  e = .call .threadCreate → (apilogicThreadCreate P.pages r.sys.kernel).1 ≠ 0 →
    r.sys.kernel.Clean (tcbAlloc P.pages r.sys.kernel).1

end Roster

/-- No trace of a former owner: the thread is clean, waits without an answer, and no vector that
fires changes it. -/
structure Unburdened (k : Kernel) (t : Ptr) : Prop where
  clean : k.Clean t
  wait : k.activeTcb = t → (apilogicInterruptWait k).1 = 0
  fire : ∀ vec, vectorPage vec < 128 →
    ((interruptVectorFire k vec).tcb t).notified = (k.tcb t).notified

theorem Roster.clean_step {r r' : Roster} {e : Event} (h : SysSound P r.sys)
    (hc : ∀ t ∈ r.untapped, t ≠ 0 ∧ r.sys.kernel.Clean t) (hok : r.CleanCreate P e)
    (hs : r.step P e = some r') : ∀ t ∈ r'.untapped, t ≠ 0 ∧ r'.sys.kernel.Clean t := by
  obtain ⟨s', hst, rfl⟩ := Option.map_eq_some_iff.mp hs
  have hold : ∀ t ∈ r.untapped, (∀ i v, e = .call (.interruptSetTap i v) → t ≠ r.sys.active) →
      t ≠ 0 ∧ s'.kernel.Clean t := fun t ht hne =>
    ⟨(hc t ht).1, (hc t ht).2.step h hst hne⟩
  have hsame : (∀ i v, e ≠ .call (.interruptSetTap i v)) → ∀ t ∈ r.untapped,
      t ≠ 0 ∧ s'.kernel.Clean t := fun hne t ht => hold t ht fun i v he => absurd he (hne i v)
  intro t ht
  cases e with
  | call c =>
    cases c with
    | threadCreate =>
      obtain ⟨-, -, rep, hb⟩ := h.step_call hst
      have hk : (apilogicThreadCreate P.pages r.sys.kernel).2 = s'.kernel :=
        congrArg Prod.snd (Option.some.inj hb)
      simp only [next] at ht
      split_ifs at ht with hi
      · exact hsame (by simp) t ht
      · rcases List.mem_cons.mp ht with rfl | ht
        · have hclean := (create_clean_iff h.sound hi).mpr (hok rfl hi)
          obtain ⟨run, free, hcoh⟩ := h.sound
          obtain ⟨x, free', -, hcr⟩ := hcoh.create
          refine ⟨?_, hk ▸ hclean⟩
          rw [(hcr.found hi).1]
          exact ((hcr.live x).mpr (Or.inr ⟨hi, rfl⟩)).1
        · exact hsame (by simp) t ht
    | threadReap th =>
      simp only [next] at ht
      split_ifs at ht
      · exact hsame (by simp) t (List.mem_filter.mp ht).1
      · exact hsame (by simp) t ht
    | interruptSetTap i v =>
      obtain ⟨ht, hne⟩ := List.mem_filter.mp ht
      exact hold t ht fun _ _ _ => of_decide_eq_true hne
    | _ => exact hsame (by simp) t ht
  | _ => exact hsame (by simp) t ht

theorem Roster.clean_run {b : Boot P} {r : Roster}
    (hr : Run (Roster.step P) (Roster.CleanCreate P) ⟨b.sys, []⟩ r) :
    SysSound P r.sys ∧ ∀ t ∈ r.untapped, t ≠ 0 ∧ r.sys.kernel.Clean t := by
  refine hr.invariant (I := fun r => SysSound P r.sys ∧
    ∀ t ∈ r.untapped, t ≠ 0 ∧ r.sys.kernel.Clean t) ⟨b.sys_sound, by simp⟩ ?_
  intro a e c ha hok hs
  refine ⟨?_, Roster.clean_step ha.1 ha.2 hok hs⟩
  obtain ⟨s', hst, rfl⟩ := Option.map_eq_some_iff.mp hs
  exact (ha.1.step hst).1

/-- A new thread is clean exactly if its block was before, and while only clean blocks are handed
out, no thread that has set no tap ever meets the taps of a former owner. -/
theorem new_thread_inherits_nothing (b : Boot P) :
    (∀ s, Reach b s → (apilogicThreadCreate P.pages s.kernel).1 ≠ 0 →
      ((apilogicThreadCreate P.pages s.kernel).2.Clean
          (tcbGet (apilogicThreadCreate P.pages s.kernel).2
            (apilogicThreadCreate P.pages s.kernel).1) ↔
        s.kernel.Clean (tcbAlloc P.pages s.kernel).1)) ∧
    ∀ r, Run (Roster.step P) (Roster.CleanCreate P) ⟨b.sys, []⟩ r →
      ∀ t ∈ r.untapped, Unburdened r.sys.kernel t := by
  refine ⟨fun s hr hi => create_clean_iff hr.sound.sound hi, fun r hr t ht => ?_⟩
  obtain ⟨h0, hc⟩ := (Roster.clean_run hr).2 t ht
  exact ⟨hc, hc.wait, fun vec hv => hc.fire hv h0⟩

/-- Thread 2 taps interrupt 0x105, exits and is reaped: its block serves the next thread with the
tap set and the route in place. -/
theorem new_thread_inherits_tap : ¬ ∀ (P : Platform) (b : Boot P) (s : Sys), Reach b s →
    (apilogicThreadCreate P.pages s.kernel).1 ≠ 0 →
    (apilogicThreadCreate P.pages s.kernel).2.Clean
      (tcbGet (apilogicThreadCreate P.pages s.kernel).2
        (apilogicThreadCreate P.pages s.kernel).1) := by
  intro h
  obtain ⟨s, hr, hs⟩ := Run.exists_of_exec (Sys.step lowPlatform) lowBoot.sys
    [.call .threadCreate, .yield, .ret, .call (.threadResume 2), .yield,
      .call (.interruptSetTap 0 0x105), .call .threadExit, .yield, .ret,
      .call (.faultGetZombie 1), .call (.threadReap 2)]
    (fun s => decide ((apilogicThreadCreate lowPlatform.pages s.kernel).1 ≠ 0 ∧
      ((apilogicThreadCreate lowPlatform.pages s.kernel).2.tcb
        (tcbGet (apilogicThreadCreate lowPlatform.pages s.kernel).2
          (apilogicThreadCreate lowPlatform.pages s.kernel).1)).tap 0 = 0x105))
    (by decide +kernel)
  obtain ⟨hi, htap⟩ := of_decide_eq_true hs
  have h0 := (h lowPlatform lowBoot s hr hi).taps 0
  rw [htap] at h0
  exact absurd h0 (by decide)

end Run
end Pinion64
