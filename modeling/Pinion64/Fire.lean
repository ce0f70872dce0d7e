import Pinion64.Reach

/-! What a firing vector does to the taps. -/
namespace Pinion64
open Intrusive Transition

namespace Tcb

/-- A tap of the block is set to the vector. -/
def HasTap (b : Tcb) (vec : BitVec 16) : Prop := ∃ j, b.tap j &&& 0x3FFF = vec

/-- A tap that is set to the vector carries the fired flag. -/
def HasFired (b : Tcb) (vec : BitVec 16) : Prop :=
  ∃ j, b.tap j &&& 0x3FFF = vec ∧ b.tap j &&& 0x8000 ≠ 0

/-- The taps of a block after the vector has been notified. -/
def notify (vec : BitVec 16) (b : Tcb) : Tcb :=
  match b.tapOf vec with
  | none => b
  | some j => b.fireTap j

variable {a b : Tcb} {vec w : BitVec 16} {j : Fin 4}

theorem hasTap_congr (h : a.tap = b.tap) : a.HasTap vec ↔ b.HasTap vec := by
  rw [HasTap, HasTap, h]

theorem hasFired_congr (h : a.tap = b.tap) : a.HasFired vec ↔ b.HasFired vec := by
  rw [HasFired, HasFired, h]

theorem tapOf_some (h : b.tapOf vec = some j) : b.tap j &&& 0x3FFF = vec := by
  simpa using List.find?_some h

theorem tapOf_none_iff : b.tapOf vec = none ↔ ¬ b.HasTap vec := by
  rw [tapOf, List.find?_eq_none]
  constructor
  · rintro h ⟨i, hi⟩
    exact h i (mem_slots i) (decide_eq_true hi)
  · intro h i _ hi
    exact h ⟨i, of_decide_eq_true hi⟩

theorem flagged_low (v : BitVec 16) : (v ||| 0x8000) &&& 0x3FFF = v &&& 0x3FFF := by
  rw [BitVec.and_comm, BitVec.and_or_distrib_left, BitVec.and_comm _ v,
    show (0x3FFF : BitVec 16) &&& 0x8000 = 0#16 by decide, BitVec.or_zero]

theorem flagged_flag (v : BitVec 16) : (v ||| 0x8000) &&& 0x8000 ≠ 0 := by
  have h : (v ||| 0x8000) &&& 0x8000 = 0x8000 := by
    apply BitVec.eq_of_getLsbD_eq
    intro i hi
    rw [BitVec.getLsbD_and, BitVec.getLsbD_or]
    cases (0x8000 : BitVec 16).getLsbD i <;> simp
  rw [h]
  decide

theorem fireTap_tap (b : Tcb) (j i : Fin 4) :
    (b.fireTap j).tap i = if i = j then b.tap j ||| 0x8000 else b.tap i := by
  rw [fireTap]
  by_cases hi : i = j
  · subst hi
    simp
  · simp [hi]

/-- Setting a flag changes no vector. -/
theorem fireTap_low (b : Tcb) (j i : Fin 4) :
    (b.fireTap j).tap i &&& 0x3FFF = b.tap i &&& 0x3FFF := by
  rw [fireTap_tap]
  split_ifs with hi
  · rw [flagged_low, hi]
  · rfl

theorem fireTap_hasTap : (b.fireTap j).HasTap vec ↔ b.HasTap vec := by
  simp only [HasTap, fireTap_low]

theorem HasFired.fireTap (h : b.HasFired vec) : (b.fireTap j).HasFired vec := by
  obtain ⟨i, h1, h2⟩ := h
  refine ⟨i, (fireTap_low b j i).trans h1, ?_⟩
  rw [fireTap_tap]
  split_ifs with hi
  · exact flagged_flag _
  · exact h2

theorem hasFired_fireTap (h : b.tapOf vec = some j) : (b.fireTap j).HasFired vec := by
  refine ⟨j, (fireTap_low b j j).trans (tapOf_some h), ?_⟩
  rw [fireTap_tap, if_pos rfl]
  exact flagged_flag _

theorem tapOf_notify (b : Tcb) (vec w : BitVec 16) : (b.notify vec).tapOf w = b.tapOf w := by
  unfold notify
  cases b.tapOf vec with
  | none => rfl
  | some j => exact tapOf_fireTap b j w

theorem notify_notify (b : Tcb) (vec : BitVec 16) :
    ((b.notify vec).notify vec).tap = (b.notify vec).tap := by
  have h := tapOf_notify b vec vec
  cases hj : b.tapOf vec with
  | none =>
    rw [hj] at h
    simp only [notify, hj]
  | some j =>
    rw [hj] at h
    have hn : b.notify vec = b.fireTap j := by simp only [notify, hj]
    rw [hn] at h ⊢
    funext i
    simp only [notify, h]
    by_cases hi : i = j
    · subst hi
      rw [fireTap_tap, if_pos rfl, fireTap_tap, if_pos rfl, BitVec.or_assoc, BitVec.or_self]
    · rw [fireTap_tap, if_neg hi]

theorem notify_congr (h : a.tap = b.tap) (vec : BitVec 16) :
    (a.notify vec).tap = (b.notify vec).tap := by
  have ht : a.tapOf vec = b.tapOf vec := tapOf_congr h vec
  simp only [notify, ht]
  cases b.tapOf vec with
  | none => exact h
  | some j => simp only [fireTap, h]

theorem notify_hasTap : (b.notify vec).HasTap w ↔ b.HasTap w := by
  unfold notify
  cases b.tapOf vec with
  | none => exact Iff.rfl
  | some j => exact fireTap_hasTap

theorem HasFired.notify (h : b.HasFired w) : (b.notify vec).HasFired w := by
  unfold Tcb.notify
  cases b.tapOf vec with
  | none => exact h
  | some j => exact h.fireTap

/-- The taps set to another vector keep their flags. -/
theorem notify_hasFired_of_ne (h : w ≠ vec) (hf : (b.notify vec).HasFired w) : b.HasFired w := by
  unfold Tcb.notify at hf
  cases hj : b.tapOf vec with
  | none =>
    rw [hj] at hf
    exact hf
  | some j =>
    rw [hj] at hf
    obtain ⟨i, h1, h2⟩ := hf
    rw [fireTap_low] at h1
    have hi : i ≠ j := by
      rintro rfl
      exact h (h1.symm.trans (tapOf_some hj))
    rw [fireTap_tap, if_neg hi] at h2
    exact ⟨i, h1, h2⟩

/-- A block with a tap set to the vector is flagged. -/
theorem notify_hasFired (h : b.HasTap vec) : (b.notify vec).HasFired vec := by
  unfold notify
  cases hj : b.tapOf vec with
  | none => exact absurd h (tapOf_none_iff.mp hj)
  | some j => exact hasFired_fireTap hj

end Tcb

variable {P : Platform} {k k' : Kernel} {vec w : BitVec 16} {t p : Ptr}

theorem notifyTap_tap (vec : BitVec 16) (k : Kernel) (t p : Ptr) :
    ((notifyTap vec k t).tcb p).tap =
      if p = t ∧ t ≠ 0 then ((k.tcb p).notify vec).tap else (k.tcb p).tap := by
  unfold notifyTap
  by_cases h0 : t = 0
  · rw [if_pos h0, if_neg fun hc => hc.2 h0]
  · rw [if_neg h0]
    cases hj : (k.tcb t).tapOf vec with
    | none =>
      split_ifs with hp
      · rw [hp.1, Tcb.notify, hj]
      · rfl
    | some j =>
      have hfire : ((k.fireTap t j).tcb p).tap =
          if p = t ∧ t ≠ 0 then ((k.tcb p).notify vec).tap else (k.tcb p).tap := by
        rw [Kernel.fireTap, Kernel.updTcb_tcb]
        by_cases hp : p = t
        · rw [if_pos hp, if_pos ⟨hp, h0⟩, hp, Tcb.notify, hj]
        · rw [if_neg hp, if_neg fun hc => hp hc.1]
      simp only
      by_cases hw : ((k.fireTap t j).tcb t).state = tcbStateWaiting
      · rw [if_pos (by exact hw)]
        exact (Kernel.setRax_tap ..).trans ((Kernel.setState_tap ..).trans
          ((schedulerPushTcb_tap ..).trans hfire))
      · rw [if_neg (by exact hw)]
        by_cases hsw : ((k.fireTap t j).tcb t).state = tcbStateSuspendedWaiting
        · rw [if_pos (by exact hsw)]
          exact (Kernel.setRax_tap ..).trans ((Kernel.setState_tap ..).trans hfire)
        · rw [if_neg (by exact hsw)]
          exact hfire

/-- The loop over the slots notifies the blocks that they name. -/
theorem foldl_notifyTap_tap (vec : BitVec 16) (r : Fin 4 → Ptr) (l : List (Fin 4)) (k : Kernel)
    (p : Ptr) : ((l.foldl (fun k i => notifyTap vec k (r i)) k).tcb p).tap =
      if p ≠ 0 ∧ ∃ i ∈ l, r i = p then ((k.tcb p).notify vec).tap else (k.tcb p).tap := by
  induction l generalizing k with
  | nil => simp
  | cons i l ih =>
    rw [List.foldl_cons, ih]
    have h1 := notifyTap_tap vec k (r i) p
    by_cases hi : p = r i ∧ r i ≠ 0
    · rw [if_pos hi] at h1
      have hex : p ≠ 0 ∧ ∃ j ∈ i :: l, r j = p :=
        ⟨hi.1.trans_ne hi.2, i, List.mem_cons_self .., hi.1.symm⟩
      rw [if_pos hex]
      split_ifs
      · exact (Tcb.notify_congr h1 vec).trans (Tcb.notify_notify ..)
      · exact h1
    · rw [if_neg hi] at h1
      have hiff : (p ≠ 0 ∧ ∃ j ∈ i :: l, r j = p) ↔ p ≠ 0 ∧ ∃ j ∈ l, r j = p := by
        refine and_congr_right fun h0 => ?_
        rw [List.exists_mem_cons_iff, or_iff_right]
        rintro rfl
        exact hi ⟨rfl, h0⟩
      simp only [hiff]
      split_ifs
      · exact Tcb.notify_congr h1 vec
      · exact h1

/-- Neither the routes nor the report queues change while a vector fires. -/
theorem notifyTap_frame (vec : BitVec 16) (k : Kernel) (t : Ptr) :
    (notifyTap vec k t).vectorPageTable = k.vectorPageTable ∧
      (notifyTap vec k t).queueHead = k.queueHead := by
  unfold notifyTap
  split_ifs
  · exact ⟨rfl, rfl⟩
  · cases (k.tcb t).tapOf vec with
    | none => exact ⟨rfl, rfl⟩
    | some j =>
      dsimp only
      split_ifs
      · rw [schedulerAddTcb, schedulerPushTcb_eq]
        exact ⟨rfl, rfl⟩
      · exact ⟨rfl, rfl⟩
      · exact ⟨rfl, rfl⟩

theorem fire_links (k : Kernel) (vec : BitVec 16) :
    (interruptVectorFire k vec).vectorPageTable = k.vectorPageTable ∧
      (interruptVectorFire k vec).queueHead = k.queueHead := by
  rw [interruptVectorFire_eq]
  cases k.routeOf vec with
  | none => exact ⟨rfl, rfl⟩
  | some r =>
    simp only
    generalize slots = l
    induction l generalizing k with
    | nil => exact ⟨rfl, rfl⟩
    | cons i l ih =>
      obtain ⟨h1, h2⟩ := notifyTap_frame vec k (r i)
      obtain ⟨h3, h4⟩ := ih (notifyTap vec k (r i))
      exact ⟨h3.trans h1, h4.trans h2⟩

theorem fire_routed (k : Kernel) (vec w : BitVec 16) (p : Ptr) :
    (interruptVectorFire k vec).Routed w p ↔ k.Routed w p := by
  rw [Kernel.Routed, Kernel.Routed, Kernel.routeOf, Kernel.routeOf, (fire_links k vec).1]

/-- A firing vector notifies exactly the blocks that its route names. -/
theorem fire_tap_routed (hr : k.Routed vec p) :
    ((interruptVectorFire k vec).tcb p).tap = ((k.tcb p).notify vec).tap := by
  obtain ⟨h0, r, hk, i, hi⟩ := hr
  rw [interruptVectorFire_eq, hk]
  exact (foldl_notifyTap_tap vec r slots k p).trans (if_pos ⟨h0, i, mem_slots i, hi⟩)

theorem fire_tap_other (hr : ¬ k.Routed vec p) :
    ((interruptVectorFire k vec).tcb p).tap = (k.tcb p).tap := by
  rw [interruptVectorFire_eq]
  cases hk : k.routeOf vec with
  | none => rfl
  | some r =>
    refine (foldl_notifyTap_tap vec r slots k p).trans (if_neg ?_)
    rintro ⟨h0, i, -, hi⟩
    exact hr ⟨h0, r, hk, i, hi⟩

/-- After a vector has fired, every block that its route names and that has a tap set to it
carries the fired flag on such a tap. -/
theorem fire_hasFired (hr : k.Routed vec p) (ht : (k.tcb p).HasTap vec) :
    ((interruptVectorFire k vec).tcb p).HasFired vec := by
  rw [Tcb.hasFired_congr (fire_tap_routed hr)]
  exact Tcb.notify_hasFired ht

theorem fire_hasTap : ((interruptVectorFire k vec).tcb p).HasTap w ↔ (k.tcb p).HasTap w := by
  by_cases hr : k.Routed vec p
  · rw [Tcb.hasTap_congr (fire_tap_routed hr), Tcb.notify_hasTap]
  · rw [Tcb.hasTap_congr (fire_tap_other hr)]

theorem Tcb.HasFired.fire (h : (k.tcb p).HasFired w) :
    ((interruptVectorFire k vec).tcb p).HasFired w := by
  by_cases hr : k.Routed vec p
  · rw [Tcb.hasFired_congr (fire_tap_routed hr)]
    exact h.notify
  · rwa [Tcb.hasFired_congr (fire_tap_other hr)]

theorem Tcb.HasFired.of_fire (hw : w ≠ vec)
    (h : ((interruptVectorFire k vec).tcb p).HasFired w) : (k.tcb p).HasFired w := by
  by_cases hr : k.Routed vec p
  · rw [Tcb.hasFired_congr (fire_tap_routed hr)] at h
    exact Tcb.notify_hasFired_of_ne hw h
  · rwa [Tcb.hasFired_congr (fire_tap_other hr)] at h

end Pinion64
