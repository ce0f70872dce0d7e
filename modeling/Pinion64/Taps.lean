import Pinion64.Fire

/-! What set_tap and reset change of the taps and of the routes, before the vector itself is
reset. -/
namespace Pinion64
open Intrusive Transition

variable {P : Platform} {k : Kernel} {t p : Ptr} {v w : BitVec 16} {i : Fin 4}

section Routes

instance (k : Kernel) (vec : BitVec 16) (t : Ptr) : Decidable (k.Routed vec t) :=
  decidable_of_iff (t ≠ 0 ∧ (k.routeOf vec).any (fun r => decide (∃ i, r i = t)) = true) <| by
    rw [Kernel.Routed, Option.any_eq_true]
    simp only [decide_eq_true_eq]

theorem vector_ext (hp : vectorPage v = vectorPage w) (hs : vectorSlot v = vectorSlot w) :
    v = w := by
  have hlow : ∀ x : BitVec 16, (vectorSlot x).toNat = x.toNat % 128 := fun x =>
    BitVec.toNat_setWidth 7 x
  have hs' := congrArg BitVec.toNat hs
  rw [hlow, hlow] at hs'
  rw [vectorPage_toNat, vectorPage_toNat] at hp
  apply BitVec.eq_of_toNat_eq
  omega

theorem Kernel.routeOf_setRoute (k : Kernel) (v w : BitVec 16) (i : Fin 4) (t : Ptr) :
    (k.setRoute v i t).routeOf w =
      if w = v then (k.routeOf w).map fun r => Function.update r i t else k.routeOf w := by
  rw [Kernel.setRoute_routeOf]
  refine if_congr ⟨fun h => vector_ext h.1 h.2, ?_⟩ rfl rfl
  rintro rfl
  exact ⟨rfl, rfl⟩

/-- A route after interrupt_remove_route. -/
def dropSlot (t : Ptr) (r : Fin 4 → Ptr) : Fin 4 → Ptr :=
  match slots.find? fun i => r i = t with
  | some i => Function.update r i 0
  | none => r

/-- A route after interrupt_add_route. -/
def takeSlot (t : Ptr) (r : Fin 4 → Ptr) : Fin 4 → Ptr :=
  match slots.find? fun i => r i = 0 with
  | some i => Function.update r i t
  | none => r

theorem dropSlot_cases (t : Ptr) (r : Fin 4 → Ptr) (j : Fin 4) :
    dropSlot t r j = r j ∨ dropSlot t r j = 0 := by
  unfold dropSlot
  cases slots.find? fun i => r i = t with
  | none => exact Or.inl rfl
  | some i =>
    by_cases hj : j = i
    · exact Or.inr (hj ▸ Function.update_self ..)
    · exact Or.inl (Function.update_of_ne hj ..)

theorem interruptRemoveRoute_routeOf (k : Kernel) (t : Ptr) (v w : BitVec 16) :
    (interruptRemoveRoute k t v).routeOf w =
      if w = v then (k.routeOf w).map (dropSlot t) else k.routeOf w := by
  unfold interruptRemoveRoute
  cases hr : k.routeOf v with
  | none =>
    split_ifs with hw
    · rw [hw, hr]
      rfl
    · rfl
  | some r =>
    cases hf : slots.find? fun i => r i = t with
    | none =>
      simp only [hf]
      split_ifs with hw
      · rw [hw, hr, Option.map_some, dropSlot, hf]
      · rfl
    | some i =>
      simp only [hf]
      rw [Kernel.routeOf_setRoute]
      split_ifs with hw
      · rw [hw, hr, Option.map_some, Option.map_some, dropSlot, hf]
      · rfl

theorem interruptAddRoute_routeOf (k : Kernel) (t : Ptr) (v w : BitVec 16) :
    (interruptAddRoute k t v).routeOf w =
      if w = v then (k.routeOf w).map (takeSlot t) else k.routeOf w := by
  unfold interruptAddRoute
  cases hr : k.routeOf v with
  | none =>
    split_ifs with hw
    · rw [hw, hr]
      rfl
    · rfl
  | some r =>
    cases hf : slots.find? fun i => r i = 0 with
    | none =>
      simp only [hf]
      split_ifs with hw
      · rw [hw, hr, Option.map_some, takeSlot, hf]
      · rfl
    | some i =>
      simp only [hf]
      rw [Kernel.routeOf_setRoute]
      split_ifs with hw
      · rw [hw, hr, Option.map_some, Option.map_some, takeSlot, hf]
      · rfl

end Routes

section SetTap

/-- The active thread leaves the route of a tap that is about to be replaced. -/
def untap (k : Kernel) (i : Fin 4) : Kernel :=
  if (k.tcb k.activeTcb).tap i &&& 0x3FFF ≠ 0 then
    interruptRemoveRoute k k.activeTcb ((k.tcb k.activeTcb).tap i)
  else k

/-- The kernel of an accepted set_tap before the reset of the vector. -/
def retap (k : Kernel) (i : Fin 4) (v : BitVec 16) : Kernel :=
  interruptAddRoute ((untap k i).updTcb k.activeTcb fun b =>
    { b with tap := Function.update b.tap i v }) k.activeTcb v

theorem interruptRemoveRoute_tcb (k : Kernel) (t : Ptr) (v : BitVec 16) :
    (interruptRemoveRoute k t v).tcb = k.tcb := by
  obtain h | ⟨i, h⟩ := interruptRemoveRoute_cases k t v
  · rw [h]
  · rw [h]
    rfl

theorem interruptAddRoute_tcb (k : Kernel) (t : Ptr) (v : BitVec 16) :
    (interruptAddRoute k t v).tcb = k.tcb := by
  obtain h | ⟨i, h⟩ := interruptAddRoute_cases k t v
  · rw [h]
  · rw [h]
    rfl

theorem untap_tcb (k : Kernel) (i : Fin 4) : (untap k i).tcb = k.tcb := by
  unfold untap
  split_ifs
  · exact interruptRemoveRoute_tcb ..
  · rfl

/-- Only the replaced tap of the active thread changes. -/
theorem retap_tap (k : Kernel) (i : Fin 4) (v : BitVec 16) (p : Ptr) :
    ((retap k i v).tcb p).tap =
      if p = k.activeTcb then Function.update (k.tcb p).tap i v else (k.tcb p).tap := by
  rw [retap, interruptAddRoute_tcb, Kernel.updTcb_tcb, untap_tcb]
  split_ifs with hp
  · rw [hp]
  · rfl

theorem retap_frame (k : Kernel) (i : Fin 4) (v : BitVec 16) : TapFrame k (retap k i v) := by
  have h1 : TapFrame k (untap k i) := by
    unfold untap
    split_ifs
    · obtain h | ⟨j, h⟩ := interruptRemoveRoute_cases k k.activeTcb
        ((k.tcb k.activeTcb).tap i)
      · rw [h]
        exact .refl k
      · rw [h]
        exact (TapFrame.refl k).setRoute _ j (Or.inl rfl)
    · exact .refl k
  have h2 := h1.setTap i v
  rw [retap]
  obtain h | ⟨j, h⟩ := interruptAddRoute_cases ((untap k i).updTcb k.activeTcb fun b =>
    { b with tap := Function.update b.tap i v }) k.activeTcb v
  · rw [h]
    exact h2
  · rw [h]
    exact h2.setRoute v j (Or.inr rfl)

theorem Vectors.retap (h : Vectors k) (i : Fin 4) (v : BitVec 16) : Vectors (retap k i v) := by
  have h1 : Vectors (untap k i) := by
    unfold untap
    split_ifs
    · obtain he | ⟨j, he⟩ := interruptRemoveRoute_cases k k.activeTcb
        ((k.tcb k.activeTcb).tap i)
      · rwa [he]
      · rw [he]
        exact h.setRoute _ j 0
    · exact h
  have h2 : Vectors ((untap k i).updTcb k.activeTcb fun b =>
      { b with tap := Function.update b.tap i v }) := h1.congr rfl
  unfold Pinion64.retap
  obtain he | ⟨j, he⟩ := interruptAddRoute_cases ((untap k i).updTcb k.activeTcb fun b =>
    { b with tap := Function.update b.tap i v }) k.activeTcb v
  · rwa [he]
  · rw [he]
    exact h2.setRoute v j k.activeTcb

theorem untap_routeOf (k : Kernel) (i : Fin 4) (w : BitVec 16) :
    (untap k i).routeOf w =
      if (k.tcb k.activeTcb).tap i &&& 0x3FFF ≠ 0 ∧ w = (k.tcb k.activeTcb).tap i then
        (k.routeOf w).map (dropSlot k.activeTcb)
      else k.routeOf w := by
  unfold untap
  split_ifs with h0 hw hw
  · rw [interruptRemoveRoute_routeOf, if_pos hw.2]
  · rw [interruptRemoveRoute_routeOf, if_neg fun hc => hw ⟨h0, hc⟩]
  · exact absurd hw.1 h0
  · rfl

theorem untap_routed {i : Fin 4} {w : BitVec 16} {t : Ptr} (h : (untap k i).Routed w t) :
    k.Routed w t := by
  obtain ⟨h0, r, hr, j, rfl⟩ := h
  rw [untap_routeOf] at hr
  split_ifs at hr
  · obtain ⟨r', hr', rfl⟩ := Option.map_eq_some_iff.mp hr
    have hj := (dropSlot_cases k.activeTcb r' j).resolve_right h0
    exact ⟨h0, r', hr', j, hj.symm⟩
  · exact ⟨h0, r, hr, j, rfl⟩

/-- The old tap leaves its route, then the new one is entered. -/
theorem retap_routeOf (k : Kernel) (i : Fin 4) (v w : BitVec 16) :
    (retap k i v).routeOf w =
      if w = v then ((untap k i).routeOf w).map (takeSlot k.activeTcb)
      else (untap k i).routeOf w := interruptAddRoute_routeOf ..

theorem apilogicInterruptSetTap_accepted {index vec : BitVec 32} (h : index.toNat < 4)
    (hv : vec &&& 0xC000 = 0) : apilogicInterruptSetTap k index vec =
      (true, interruptVectorReset (retap k (tapIndex index h) (vec.setWidth 16))
        (vec.setWidth 16)) := by
  rw [apilogicInterruptSetTap, dif_pos h, if_neg (not_not.mpr hv)]
  generalize tapIndex index h = i
  generalize vec.setWidth 16 = v
  have htap : ((retap k i v).tcb k.activeTcb).tap i = v := by
    rw [retap_tap, if_pos rfl, Function.update_self]
  have hnew : (((untap k i).updTcb k.activeTcb fun b =>
      { b with tap := Function.update b.tap i v }).tcb k.activeTcb).tap i = v := by
    rw [Kernel.updTcb_self]
    exact Function.update_self ..
  unfold retap at htap ⊢
  unfold untap at htap hnew ⊢
  simp only [hnew, htap]

theorem apilogicInterruptSetTap_refused {index vec : BitVec 32}
    (h : ¬ (index.toNat < 4 ∧ vec &&& 0xC000 = 0)) :
    apilogicInterruptSetTap k index vec = (false, k) := by
  rw [apilogicInterruptSetTap]
  by_cases hi : index.toNat < 4
  · rw [dif_pos hi, if_pos fun hv => h ⟨hi, hv⟩]
  · rw [dif_neg hi]

/-- The vector of an accepted tap has none of the two upper bits. -/
theorem accepted_low {vec : BitVec 32} (hv : vec &&& 0xC000 = 0) :
    vec.setWidth 16 &&& 0xC000 = 0 := by
  have h := congrArg (BitVec.setWidth 16) hv
  rwa [BitVec.setWidth_and] at h

end SetTap

section Reset

/-- The fired flag of a tap of the active thread is taken back. -/
def unflag (k : Kernel) (i : Fin 4) : Kernel :=
  k.updTcb k.activeTcb fun b => { b with tap := Function.update b.tap i (b.tap i &&& ~~~0x8000) }

theorem unflag_tap (k : Kernel) (i : Fin 4) (p : Ptr) :
    ((unflag k i).tcb p).tap = if p = k.activeTcb then
      Function.update (k.tcb p).tap i ((k.tcb p).tap i &&& ~~~0x8000) else (k.tcb p).tap := by
  rw [unflag, Kernel.updTcb_tcb]
  split_ifs with hp
  · rw [hp]
  · rfl

/-- A reset takes the flag of the first tap set to the vector back and resets the vector. -/
theorem apilogicInterruptReset_cases (k : Kernel) (vec : BitVec 32) :
    apilogicInterruptReset k vec = k ∨ ∃ i,
      vec.setWidth 16 = (k.tcb k.activeTcb).tap i &&& ~~~0xC000 ∧
      apilogicInterruptReset k vec = interruptVectorReset (unflag k i) (vec.setWidth 16) := by
  simp only [apilogicInterruptReset]
  cases hf : slots.find? fun i =>
      ((k.tcb k.activeTcb).tap i &&& ~~~0xC000).setWidth 32 = vec with
  | none => exact Or.inl rfl
  | some i =>
    have hi : ((k.tcb k.activeTcb).tap i &&& ~~~0xC000).setWidth 32 = vec := by
      simpa using List.find?_some hf
    refine Or.inr ⟨i, ?_, rfl⟩
    rw [← hi, BitVec.setWidth_setWidth_of_le _ (by decide), BitVec.setWidth_eq]

end Reset
end Pinion64
