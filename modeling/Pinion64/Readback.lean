import Pinion64.TapStep
import Pinion64.StateLens

/-! What a thread gets back of its taps: get_tap reads a tap with its fired flag, and wait hands
out a vector that has fired. -/
namespace Pinion64
open Intrusive Transition

variable {P : Platform} {k k' : Kernel} {s s' : Sys} {e : Event} {p : Ptr} {i : Fin 4}
  {v : BitVec 16} {index vec : BitVec 32}

section Accepts

/-- set_tap accepts the vector. -/
def Settable (vec : BitVec 32) : Prop := vec &&& 0xC000 = 0

instance (vec : BitVec 32) : Decidable (Settable vec) := by unfold Settable; infer_instance

theorem setTap_iff (k : Kernel) (h : index.toNat < 4) :
    (apilogicInterruptSetTap k index vec).1 = true ↔ Settable vec := by
  by_cases hv : vec &&& 0xC000 = 0
  · rw [apilogicInterruptSetTap_accepted h hv]
    exact iff_of_true rfl hv
  · rw [apilogicInterruptSetTap_refused fun hc => hv hc.2]
    exact iff_of_false (by simp) hv

theorem settable_of_setTap (h : (apilogicInterruptSetTap k index vec).1 = true) :
    index.toNat < 4 ∧ Settable vec := by
  by_contra hc
  rw [apilogicInterruptSetTap_refused hc] at h
  cases h

theorem settable_setWidth : Settable (v.setWidth 32) ↔ v &&& 0xC000 = 0 := by
  have h : v.setWidth 32 &&& 0xC000 = (v &&& 0xC000).setWidth 32 := by
    rw [BitVec.setWidth_and]
    rfl
  rw [Settable, h]
  constructor
  · intro hv
    have hv' := congrArg (BitVec.setWidth 16) hv
    rwa [BitVec.setWidth_setWidth_of_le _ (by decide), BitVec.setWidth_eq] at hv'
  · intro hv
    rw [hv]
    rfl

theorem unflagged (hv : v &&& 0xC000 = 0) : v &&& 0x8000 = 0 := by
  have h : v &&& 0xC000 &&& 0x8000 = 0 := by
    rw [hv]
    rfl
  rwa [BitVec.and_assoc] at h

theorem flagged_clear (hv : v &&& 0xC000 = 0) : (v ||| 0x8000) &&& ~~~0x8000 = v := by
  rw [BitVec.and_comm, BitVec.and_or_distrib_left, BitVec.and_comm _ v,
    show (~~~0x8000 : BitVec 16) &&& 0x8000 = 0#16 by decide, BitVec.or_zero]
  have hlow := low_eq_self hv
  conv_lhs => rw [← hlow]
  rw [BitVec.and_assoc]
  exact hlow

theorem clear_self (hv : v &&& 0xC000 = 0) : v &&& ~~~0x8000 = v := by
  have hlow := low_eq_self hv
  conv_lhs => rw [← hlow]
  rw [BitVec.and_assoc]
  exact hlow

end Accepts

section Watch

/-- The event sets the tap of the thread. -/
def Sys.SetsTap (s : Sys) (p : Ptr) (i : Fin 4) : Event → Prop
  | .call (.interruptSetTap index vec) => p = s.active ∧ index.toNat = i ∧ Settable vec
  | _ => False

/-- The event takes the fired flag of the tap back. -/
def Sys.Clears (s : Sys) (p : Ptr) (i : Fin 4) : Event → Prop
  | .call (.interruptReset vec) => p = s.active ∧ resetSlot s.kernel vec = some i
  | _ => False

instance decCallSetsTap (s : Sys) (p : Ptr) (i : Fin 4) :
    (c : Call) → Decidable (s.SetsTap p i (.call c))
  | .interruptSetTap _ _ => inferInstanceAs (Decidable (_ ∧ _ ∧ Settable _))
  | .threadYield | .threadCreate | .threadPause _ | .threadResume _ | .threadExit | .threadReap _
  | .threadPullState .. | .threadPushState .. | .interruptGetTap _ | .interruptReset _
  | .interruptWait | .threadGet _ | .faultGetPagefault _ | .faultGetMiscfault _ | .faultGetZombie _
  | .pageSet .. | .pageGet _ => instDecidableFalse

instance decSetsTap (s : Sys) (p : Ptr) (i : Fin 4) : (e : Event) → Decidable (s.SetsTap p i e)
  | .call c => decCallSetsTap s p i c
  | .interrupt .. => instDecidableFalse
  | .yield => instDecidableFalse
  | .run _ => instDecidableFalse
  | .ret => instDecidableFalse

instance decClears (s : Sys) (p : Ptr) (i : Fin 4) (e : Event) : Decidable (s.Clears p i e) := by
  unfold Sys.Clears
  split <;> infer_instance

/-- An event that does not set a tap of the active thread only takes its flag back. -/
theorem rewired_tap (h : ¬ s.SetsTap p i e) : ((e.rewired s.kernel).tcb p).tap i =
    if s.Clears p i e then (s.kernel.tcb p).tap i &&& ~~~0x8000 else (s.kernel.tcb p).tap i := by
  have hsame : e.rewired s.kernel = s.kernel → ¬ s.Clears p i e →
      ((e.rewired s.kernel).tcb p).tap i = if s.Clears p i e then
        (s.kernel.tcb p).tap i &&& ~~~0x8000 else (s.kernel.tcb p).tap i := by
    intro hk hc
    rw [hk, if_neg hc]
  cases e with
  | call c =>
    cases c with
    | interruptSetTap index vec =>
      by_cases ha : index.toNat < 4 ∧ vec &&& 0xC000 = 0
      · have hk₁ : (Event.call (.interruptSetTap index vec)).rewired s.kernel =
            retap s.kernel (tapIndex index ha.1) (vec.setWidth 16) := rewired_accepted ha.1 ha.2
        have hc : ¬ s.Clears p i (.call (.interruptSetTap index vec)) := id
        rw [hk₁, retap_tap, if_neg hc]
        by_cases hp : p = s.kernel.activeTcb
        · rw [if_pos hp, Function.update_of_ne]
          intro hi
          exact h ⟨hp, (congrArg Fin.val hi).symm, ha.2⟩
        · rw [if_neg hp]
      · exact hsame (rewired_refused ha) id
    | interruptReset vec =>
      cases hf : resetSlot s.kernel vec with
      | none =>
        refine hsame ?_ ?_
        · simp only [Event.rewired, Call.rewired, hf]
          rfl
        · intro hc
          rw [Sys.Clears, hf] at hc
          exact absurd hc.2 (by simp)
      | some j =>
        have hk₁ : (Event.call (.interruptReset vec)).rewired s.kernel = unflag s.kernel j := by
          simp only [Event.rewired, Call.rewired, hf]
          rfl
        have hiff : s.Clears p i (.call (.interruptReset vec)) ↔ p = s.kernel.activeTcb ∧ j = i := by
          rw [Sys.Clears, hf, Option.some.injEq]
          rfl
        rw [hk₁, unflag_tap]
        by_cases hp : p = s.kernel.activeTcb
        · rw [if_pos hp]
          by_cases hj : j = i
          · rw [if_pos (hiff.mpr ⟨hp, hj⟩), hj, Function.update_self]
          · rw [if_neg fun hc => hj (hiff.mp hc).2, Function.update_of_ne (Ne.symm hj)]
        · rw [if_neg hp, if_neg fun hc => hp (hiff.mp hc).1]
    | _ => exact hsame rfl id
  | _ => exact hsame rfl id

/-- The running system with the news whether the vector of a tap has fired since the tap was set or
its flag was taken back. -/
structure Watch where
  sys : Sys
  rung : Bool

namespace Watch

def step (P : Platform) (p : Ptr) (i : Fin 4) (w : Watch) (e : Event) : Option Watch :=
  (w.sys.step P e).map fun s =>
    ⟨s, decide (w.sys.Rings e p i ∨ w.rung = true ∧ ¬ w.sys.Clears p i e)⟩

/-- The thread does not set the tap again. -/
def Keeps (p : Ptr) (i : Fin 4) (w : Watch) (e : Event) : Prop := ¬ w.sys.SetsTap p i e

/-- The tap holds the vector that it was set to, with the flag if it has fired. -/
structure Holds (P : Platform) (p : Ptr) (i : Fin 4) (v : BitVec 16) (w : Watch) : Prop where
  sound : SysSound P w.sys
  tap : (w.sys.kernel.tcb p).tap i = if w.rung then v ||| 0x8000 else v

theorem Holds.step {w w' : Watch} (h : w.Holds P p i v) (hv : v &&& 0xC000 = 0)
    (hk : w.Keeps p i e) (hw : w.step P p i e = some w') : w'.Holds P p i v := by
  obtain ⟨s', hst, rfl⟩ := Option.map_eq_some_iff.mp hw
  refine ⟨(h.sound.step hst).1, ?_⟩
  rw [tap_step h.sound hst, rewired_tap hk, h.tap]
  simp only [decide_eq_true_eq]
  have hclear : (if w.rung then v ||| 0x8000 else v) &&& ~~~0x8000 = v := by
    split_ifs
    · exact flagged_clear hv
    · exact clear_self hv
  have htwice : (if w.rung then v ||| 0x8000 else v) ||| 0x8000 = v ||| 0x8000 := by
    split_ifs
    · rw [BitVec.or_assoc, BitVec.or_self]
    · rfl
  by_cases hr : w.sys.Rings e p i
  · rw [if_pos hr, if_pos (Or.inl hr)]
    by_cases hc : w.sys.Clears p i e
    · rw [if_pos hc, hclear]
    · rw [if_neg hc, htwice]
  · rw [if_neg hr]
    by_cases hc : w.sys.Clears p i e
    · rw [if_pos hc, hclear, if_neg (by simp [hr, hc])]
    · rw [if_neg hc]
      simp [hr, hc]

/-- The state behind an accepted set_tap. -/
def start (s s₀ : Sys) (index vec : BitVec 32) (h : index.toNat < 4) : Watch :=
  ⟨s₀, decide (s.Rings (.call (.interruptSetTap index vec)) s.active (tapIndex index h))⟩

theorem start_holds {s₀ : Sys} (hs : SysSound P s) (h : index.toNat < 4) (hv : Settable vec)
    (hst : s.step P (.call (.interruptSetTap index vec)) = some s₀) :
    (start s s₀ index vec h).Holds P s.active (tapIndex index h) (vec.setWidth 16) := by
  refine ⟨(hs.step hst).1, ?_⟩
  have hk₁ : (Event.call (.interruptSetTap index vec)).rewired s.kernel =
      retap s.kernel (tapIndex index h) (vec.setWidth 16) := rewired_accepted h hv
  have hset : (((Event.call (.interruptSetTap index vec)).rewired s.kernel).tcb s.active).tap
      (tapIndex index h) = vec.setWidth 16 := by
    rw [hk₁, retap_tap, if_pos (show s.active = s.kernel.activeTcb from rfl),
      Function.update_self]
  change (s₀.kernel.tcb s.active).tap _ = if decide _ = true then _ else _
  rw [tap_step hs hst, hset]
  simp only [decide_eq_true_eq]

theorem Holds.run {w w' : Watch} (h : w.Holds P p i v) (hv : v &&& 0xC000 = 0)
    (hr : Run (Watch.step P p i) (Keeps p i) w w') : w'.Holds P p i v :=
  hr.invariant h fun _ _ _ ha hk hw => ha.step hv hk hw

/-- What is read is the vector exactly if its flag is not set and it has sixteen bits. -/
theorem Holds.read {w : Watch} (h : index.toNat < 4) (hv : Settable vec)
    (hw : w.Holds P w.sys.active (tapIndex index h) (vec.setWidth 16)) :
    (apilogicInterruptGetTap w.sys.kernel index = vec ↔ w.rung = false ∧ vec.toNat < 2 ^ 16) ∧
    (Settable (apilogicInterruptGetTap w.sys.kernel index) ↔ w.rung = false) := by
  have hread : apilogicInterruptGetTap w.sys.kernel index =
      (if w.rung then vec.setWidth 16 ||| 0x8000 else vec.setWidth 16).setWidth 32 := by
    rw [apilogicInterruptGetTap, dif_pos h, ← hw.tap]
    rfl
  have hlow := accepted_low hv
  rw [hread]
  cases w.rung with
  | true =>
    have hbad : ¬ Settable ((vec.setWidth 16 ||| 0x8000).setWidth 32) := fun hc =>
      Tcb.flagged_flag _ (unflagged (settable_setWidth.mp hc))
    simp only [if_true]
    refine ⟨iff_of_false (fun hc => hbad ?_) (by simp), iff_of_false hbad (by simp)⟩
    rwa [hc]
  | false =>
    refine ⟨?_, iff_of_true (settable_setWidth.mpr hlow) rfl⟩
    have hval : (vec.setWidth 16).setWidth 32 = vec ↔ vec.toNat < 2 ^ 16 := by
      rw [← BitVec.toNat_inj, BitVec.toNat_setWidth, BitVec.toNat_setWidth]
      omega
    simpa using hval

end Watch

end Watch
end Pinion64
