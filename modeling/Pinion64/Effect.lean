import Pinion64.Threads
import Pinion64.Lib.Run

/-! The elementary steps out of which every API body and every handler is made, with the
condition under which each is taken. -/
namespace Pinion64
open Intrusive Transition

inductive Effect
  /-- Queue a block that is neither queued nor active. -/
  | ready (t : Ptr)
  /-- Load the first block of the run queue. -/
  | dispatch (t : Ptr)
  | inject
  | unload
  /-- Take a block off the run queue and suspend it. -/
  | block (t : Ptr)
  /-- Change a state outside the run queue. -/
  | shift (t : Ptr) (s : BitVec 16)
  | report (q : TcbQueue) (t : Ptr)
  | fetch (q : TcbQueue)
  /-- Set the fired flag of a block that does not wait. -/
  | flag (vec : BitVec 16) (t : Ptr) (j : Fin 4)
  /-- Set the fired flag of a waiting block, queue it and patch its rax. -/
  | wake (vec : BitVec 16) (t : Ptr) (j : Fin 4)
  /-- The same for a block that has been paused while it waited. -/
  | unwait (vec : BitVec 16) (t : Ptr) (j : Fin 4)
  | setTap (t : Ptr) (i : Fin 4) (v : BitVec 16)
  | setSlot (vec : BitVec 16) (i : Fin 4) (t : Ptr)
  | create
  | reap (t : Ptr)
  | regs (t : Ptr) (r : Regs) (ivect saved : BitVec 32) (error : Word)
  | paging (p : Paging)

namespace Kernel

def fireTap (k : Kernel) (t : Ptr) (j : Fin 4) : Kernel := k.updTcb t fun b => b.fireTap j

/-- A route slot of the vector names the block. -/
def Routed (k : Kernel) (vec : BitVec 16) (t : Ptr) : Prop :=
  t ≠ 0 ∧ ∃ r, k.routeOf vec = some r ∧ ∃ i, r i = t

end Kernel

def Effect.apply (P : Platform) (k : Kernel) : Effect → Option Kernel
  | ready t => some ((schedulerPushTcb k t).setState t tcbStateQueued)
  | dispatch t => some (ccbLoadTcb ((schedulerPullTcb k).2.setState t tcbStateRunning) t).2
  | inject => some (ccbLoadTcb k P.idleTcb).2
  | unload => some (ccbUnloadTcb k).2
  | block t => (schedulerRemTcb k t).map fun r => r.2.setState t tcbStateSuspended
  | shift t s => some (k.setState t s)
  | report q t => some (enqueue k q t)
  | fetch q => some (getQueued k q).2
  | flag _ t j => some (k.fireTap t j)
  | wake vec t j =>
    some (((schedulerPushTcb (k.fireTap t j) t).setState t tcbStateQueued).setRax t
      (vec.setWidth 64))
  | unwait vec t j =>
    some (((k.fireTap t j).setState t tcbStateSuspended).setRax t (vec.setWidth 64))
  | setTap t i v => some (k.updTcb t fun b => { b with tap := Function.update b.tap i v })
  | setSlot vec i t => some (k.setRoute vec i t)
  | create => some (apilogicThreadCreate P.pages k).2
  | reap t => some (tcbDel k t)
  | regs t r ivect saved error => some (k.updTcb t fun b =>
      { b with regs := r, ivect := ivect, saved := saved, error := error })
  | paging p => some { k with paging := p }

/-- The changes of state that happen outside the run queue. A thread starts to wait only if no
tap of it has fired. -/
def Tcb.Shift (b : Tcb) (s : BitVec 16) : Prop :=
  b.state = tcbStateWaiting ∧ s = tcbStateSuspendedWaiting ∨
  b.state = tcbStateSuspendedWaiting ∧ s = tcbStateWaiting ∨
  b.state = tcbStateRunning ∧ s = tcbStateSuspended ∨
  b.state = tcbStateRunning ∧ s = tcbStateWaiting ∧ ∀ j, b.tap j &&& 0x8000 = 0

/-- A vector that fires, a block that one of its slots names and the tap that matches. -/
def Fired (k : Kernel) (vec : BitVec 16) (t : Ptr) (j : Fin 4) : Prop :=
  vectorPage vec < 128 ∧ k.Routed vec t ∧ (k.tcb t).tapOf vec = some j

/-- When the kernel takes each step. -/
def Enabled (P : Platform) (k : Kernel) : Effect → Prop
  | .ready t => (k.Live t ∨ t = P.idleTcb) ∧ k.state t ≠ tcbStateQueued ∧ k.activeTcb ≠ t
  | .dispatch t => k.activeTcb = 0 ∧ t ≠ 0 ∧ k.scheduleHead = t
  | .inject => k.activeTcb = 0 ∧ k.scheduleHead = 0
  | .unload => True
  | .block t => k.Live t ∧ k.state t = tcbStateQueued
  | .shift t s => k.Live t ∧ (k.tcb t).Shift s
  | .report _ t => (k.Live t ∨ t = P.idleTcb) ∧ k.state t ≠ tcbStateQueued
  | .fetch _ => True
  | .flag vec t j => Fired k vec t j ∧ k.state t ≠ tcbStateWaiting ∧
      k.state t ≠ tcbStateSuspendedWaiting
  | .wake vec t j => Fired k vec t j ∧ k.state t = tcbStateWaiting ∧ k.activeTcb ≠ t
  | .unwait vec t j => Fired k vec t j ∧ k.state t = tcbStateSuspendedWaiting
  | .setTap t _ v => k.Live t ∧ v &&& 0x8000 = 0
  | .setSlot _ _ t => t = 0 ∨ k.Live t
  | .create => True
  | .reap t => k.Live t ∧ k.state t = tcbStateSuspended ∧ k.activeTcb ≠ t
  | .regs .. => True
  | .paging p => k.paging.pmmTaken ≤ p.pmmTaken

/-- The kernel's structures are coherent. -/
def Sound (P : Platform) (k : Kernel) : Prop := ∃ run free, Coherent P k run free

/-- A sequence of enabled steps of certain kinds. -/
abbrev Effects (P : Platform) (A : Effect → Prop) : Kernel → Kernel → Prop :=
  Run (Effect.apply P) fun k e => Enabled P k e ∧ A e

variable {P : Platform} {k k' : Kernel} {A B : Effect → Prop} {e : Effect}

theorem Tcb.Shift.old {b : Tcb} {s : BitVec 16} (h : b.Shift s) : b.state ≠ tcbStateQueued := by
  rcases h with ⟨h, -⟩ | ⟨h, -⟩ | ⟨h, -⟩ | ⟨h, -⟩ <;>
  · rw [h]
    decide

theorem Tcb.Shift.new {b : Tcb} {s : BitVec 16} (h : b.Shift s) :
    s ≠ tcbStateQueued ∧ s ≠ tcbStateRunning := by
  rcases h with ⟨-, rfl⟩ | ⟨-, rfl⟩ | ⟨-, rfl⟩ | ⟨-, rfl, -⟩ <;> decide

theorem Fired.live {run free : List Ptr} (h : Coherent P k run free) {vec : BitVec 16} {t : Ptr}
    {j : Fin 4} (hf : Fired k vec t j)
    (hs : k.state t = tcbStateWaiting ∨ k.state t = tcbStateSuspendedWaiting) : k.Live t := by
  obtain ⟨hv, ⟨hne, r, hr, i, rfl⟩, -⟩ := hf
  exact h.routed_live hv hr hne hs

/-- The run queue after a step. -/
def Effect.line (run : List Ptr) : Effect → List Ptr
  | ready t => run ++ [t]
  | dispatch _ => run.tail
  | block t => run.erase t
  | wake _ t _ => run ++ [t]
  | _ => run

/-- Every enabled step can be taken and keeps the structures coherent. -/
theorem Coherent.effect {run free : List Ptr} (h : Coherent P k run free) (he : Enabled P k e) :
    ∃ k' free', e.apply P k = some k' ∧ Coherent P k' (e.line run) free' := by
  cases e with
  | ready t => exact ⟨_, _, rfl, h.ready he.1 he.2.1 he.2.2⟩
  | dispatch t =>
    obtain ⟨ha, hne, rfl⟩ := he
    obtain ⟨m, rfl, -⟩ := h.fifo.1.exists_cons hne
    exact ⟨_, _, rfl, h.dispatch ha⟩
  | inject =>
    have hrun : run = [] := h.fifo.eq_nil_iff.mpr he.2
    subst hrun
    exact ⟨_, _, rfl, h.inject he.1⟩
  | unload => exact ⟨_, _, rfl, h.unload⟩
  | block t =>
    obtain ⟨k₁, hrem, hk, -⟩ := h.block he.1 he.2 (s := tcbStateSuspended) (by decide)
    exact ⟨_, _, by rw [Effect.apply, hrem]; rfl, hk⟩
  | shift t s => exact ⟨_, _, rfl, h.shift he.1 he.2.old he.2.new.1⟩
  | report q t => exact ⟨_, _, rfl, h.report he.2⟩
  | fetch q => exact ⟨_, _, rfl, h.fetch q⟩
  | flag vec t j => exact ⟨_, _, rfl, h.updTcb t _ fun _ => ⟨rfl, rfl, rfl, rfl⟩⟩
  | wake vec t j =>
    have h1 : Coherent P (k.fireTap t j) run free := h.updTcb t _ fun _ => ⟨rfl, rfl, rfl, rfl⟩
    have hst : (k.fireTap t j).state t ≠ tcbStateQueued := by
      have hsame : (k.fireTap t j).state t = k.state t :=
        k.updTcb_proj t t _ Tcb.state fun _ => rfl
      rw [hsame, he.2.1]
      decide
    have h2 := h1.ready (Or.inl (he.1.live h (Or.inl he.2.1))) hst he.2.2
    exact ⟨_, _, rfl, h2.updTcb t _ fun _ => ⟨rfl, rfl, rfl, rfl⟩⟩
  | unwait vec t j =>
    have h1 : Coherent P (k.fireTap t j) run free := h.updTcb t _ fun _ => ⟨rfl, rfl, rfl, rfl⟩
    have hst : (k.fireTap t j).state t ≠ tcbStateQueued := by
      have hsame : (k.fireTap t j).state t = k.state t :=
        k.updTcb_proj t t _ Tcb.state fun _ => rfl
      rw [hsame, he.2]
      decide
    have h2 := h1.shift (t := t) (he.1.live h (Or.inr he.2)) hst (s := tcbStateSuspended)
      (by decide)
    exact ⟨_, _, rfl, h2.updTcb t _ fun _ => ⟨rfl, rfl, rfl, rfl⟩⟩
  | setTap t i v => exact ⟨_, _, rfl, h.updTcb t _ fun _ => ⟨rfl, rfl, rfl, rfl⟩⟩
  | setSlot vec i t => exact ⟨_, _, rfl, h.setSlot vec i he⟩
  | create =>
    obtain ⟨t, free', hc, -⟩ := h.create
    exact ⟨_, _, rfl, hc⟩
  | reap t => exact ⟨_, _, rfl, (h.reap he.1 he.2.1 he.2.2).1⟩
  | regs t r iv sv er => exact ⟨_, _, rfl, h.updTcb t _ fun _ => ⟨rfl, rfl, rfl, rfl⟩⟩
  | paging p => exact ⟨_, _, rfl, h.paging he⟩

theorem Sound.effect (h : Sound P k) (he : Enabled P k e) :
    ∃ k', e.apply P k = some k' ∧ Sound P k' := by
  obtain ⟨run, free, h⟩ := h
  obtain ⟨k', free', hk, h'⟩ := h.effect he
  exact ⟨k', hk, _, _, h'⟩

theorem Sound.effects (h : Sound P k) (hr : Effects P A k k') : Sound P k' := by
  refine hr.invariant (I := Sound P) h fun a e b ha he hs => ?_
  obtain ⟨k₁, hk, hk₁⟩ := ha.effect he.1
  rw [hk] at hs
  exact Option.some.inj hs ▸ hk₁

namespace Effects

theorem single (he : Enabled P k e) (ha : A e) (hk : e.apply P k = some k') : Effects P A k k' :=
  .tail .refl ⟨he, ha⟩ hk

theorem weaken (h : Effects P A k k') (hab : ∀ e, A e → B e) : Effects P B k k' :=
  h.mono fun _ e he => ⟨he.1, hab e he.2⟩

/-- What every allowed step keeps, the whole sequence keeps. -/
theorem keep {I : Kernel → Prop} (h : Effects P A k k') (h0 : I k) (hs : Sound P k)
    (hstep : ∀ a e b, I a → Sound P a → Enabled P a e → A e → e.apply P a = some b → I b) :
    I k' := by
  have hboth : I k' ∧ Sound P k' := h.invariant (I := fun a => I a ∧ Sound P a) ⟨h0, hs⟩
    fun a e b ha he hb => by
      obtain ⟨k₁, hk, hk₁⟩ := ha.2.effect he.1
      rw [hk] at hb
      obtain rfl := Option.some.inj hb
      exact ⟨hstep a e _ ha.1 ha.2 he.1 he.2 hk, hk₁⟩
  exact hboth.1

end Effects
end Pinion64
