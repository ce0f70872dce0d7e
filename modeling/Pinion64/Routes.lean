import Pinion64.Inherit
import Pinion64.Taps
import Pinion64.Lib.Tally

/-! Every tap is entered twice, in its thread and in the route of its vector; the two entries
agree as long as set_tap replaces no fired tap and finds a free slot. -/
namespace Pinion64
open Intrusive Transition Counting

/-- The vectors that the taps of a block are set to, the fired flag put aside. -/
def Tcb.vectors (b : Tcb) (j : Fin 4) : BitVec 16 := b.tap j &&& 0x7FFF

/-- The slots that name a block are as many as its taps, for every vector of an installed page. -/
def Agree (k : Kernel) (p : Ptr) : Prop :=
  ∀ v r, vectorPage v < 128 → k.routeOf v = some r → tally r p = tally (k.tcb p).vectors v

variable {P : Platform} {k k' : Kernel} {s s' : Sys} {e : Event} {f : Effect} {p t : Ptr}
  {v w : BitVec 16} {i : Fin 4}

section Slots

theorem find_slot {q : Fin 4 → Prop} [DecidablePred q] (h : ∃ j, q j) :
    ∃ i, (slots.find? fun i => decide (q i)) = some i ∧ q i := by
  obtain ⟨j, hj⟩ := h
  cases hf : slots.find? fun i => decide (q i) with
  | none => exact absurd (decide_eq_true hj) (List.find?_eq_none.mp hf j (mem_slots j))
  | some i => exact ⟨i, rfl, by simpa using List.find?_some hf⟩

/-- A slot that names the thread is taken back. -/
theorem tally_dropSlot {r : Fin 4 → Ptr} (h : ∃ j, r j = t) (ht : t ≠ 0) :
    tally (dropSlot t r) t + 1 = tally r t ∧ ∃ j, dropSlot t r j = 0 := by
  obtain ⟨i, hi, hr⟩ := find_slot h
  have hupd := tally_update r i 0 t
  rw [if_pos hr, if_neg ht.symm] at hupd
  have hd : dropSlot t r = Function.update r i 0 := by rw [dropSlot, hi]
  rw [hd]
  exact ⟨hupd, i, Function.update_self ..⟩

theorem tally_dropSlot_other (r : Fin 4 → Ptr) (hp : p ≠ t) (h0 : p ≠ 0) :
    tally (dropSlot t r) p = tally r p := by
  unfold dropSlot
  cases hf : slots.find? fun i => r i = t with
  | none => rfl
  | some i =>
    refine tally_update_of_ne ?_ h0.symm
    have hi : r i = t := by simpa using List.find?_some hf
    rw [hi]
    exact hp.symm

/-- A free slot is given to the thread. -/
theorem tally_takeSlot {r : Fin 4 → Ptr} (h : ∃ j, r j = 0) (ht : t ≠ 0) :
    tally (takeSlot t r) t = tally r t + 1 := by
  obtain ⟨i, hi, hr⟩ := find_slot h
  have hupd := tally_update r i t t
  rw [if_pos rfl, if_neg fun hc => ht (hc.symm.trans hr)] at hupd
  rw [takeSlot, hi]
  exact hupd

theorem takeSlot_full {r : Fin 4 → Ptr} (h : ¬ ∃ j, r j = 0) : takeSlot t r = r := by
  have hf : (slots.find? fun i => r i = 0) = none :=
    List.find?_eq_none.mpr fun i _ hi => h ⟨i, of_decide_eq_true hi⟩
  rw [takeSlot, hf]

theorem tally_takeSlot_other (r : Fin 4 → Ptr) (hp : p ≠ t) (h0 : p ≠ 0) :
    tally (takeSlot t r) p = tally r p := by
  unfold takeSlot
  cases hf : slots.find? fun i => r i = 0 with
  | none => rfl
  | some i =>
    refine tally_update_of_ne ?_ hp.symm
    have hi : r i = 0 := by simpa using List.find?_some hf
    rw [hi]
    exact h0.symm

end Slots

section Installed

/-- The vectors of the installed pages have no upper bits and are not zero. -/
theorem Vectors.installed (h : Vectors k) (hv : vectorPage v < 128) {r : Fin 4 → Ptr}
    (hr : k.routeOf v = some r) : v &&& 0x3FFF = v ∧ v ≠ 0 := by
  have hpage : vectorPage v = 1 ∨ vectorPage v = 2 := by
    by_contra hc
    obtain ⟨h1, h2⟩ := not_or.mp hc
    rw [Kernel.routeOf, h.other _ hv h1 h2] at hr
    exact absurd hr (by simp)
  rw [vectorPage_toNat] at hpage
  constructor
  · apply BitVec.eq_of_toNat_eq
    rw [BitVec.toNat_and]
    refine (Nat.and_two_pow_sub_one_eq_mod v.toNat 14).trans (Nat.mod_eq_of_lt ?_)
    omega
  · rintro rfl
    simp at hpage

theorem low_of_installed (h : Vectors k) (hv : vectorPage v < 128) {r : Fin 4 → Ptr}
    (hr : k.routeOf v = some r) : v &&& 0x7FFF = v ∧ v &&& 0xC000 = 0 := by
  have hlow := (h.installed hv hr).1
  constructor
  · conv_lhs => rw [← hlow]
    rw [BitVec.and_assoc]
    exact hlow
  · rw [← hlow, BitVec.and_assoc]
    simp

end Installed

section Frame

theorem Agree.congr (h : Agree k p) (hp : k'.vectorPageTable = k.vectorPageTable)
    (hv : (k'.tcb p).vectors = (k.tcb p).vectors) : Agree k' p := by
  intro v r hlt hr
  rw [Kernel.routeOf, hp] at hr
  rw [hv]
  exact h v r hlt hr

theorem Tcb.fireTap_vectors (b : Tcb) (j : Fin 4) : (b.fireTap j).vectors = b.vectors := by
  funext i
  rw [Tcb.vectors, Tcb.vectors, Tcb.fireTap_tap]
  split_ifs with hi
  · rw [hi, BitVec.and_comm, BitVec.and_or_distrib_left, BitVec.and_comm _ (b.tap j),
      show (0x7FFF : BitVec 16) &&& 0x8000 = 0#16 by decide, BitVec.or_zero]
  · rfl

theorem Tcb.vectors_congr {a b : Tcb} (h : a.tap = b.tap) : a.vectors = b.vectors := by
  funext i
  rw [Tcb.vectors, Tcb.vectors, h]

/-- The steps that set no tap and enter no slot. -/
def Effect.Wired : Effect → Prop
  | setTap .. => False
  | setSlot .. => False
  | _ => True

theorem Agree.effect (h : Agree k p) (hs : Sound P k) (he : Enabled P k f)
    (hk : f.apply P k = some k') (hf : f.Wired) : Agree k' p := by
  have hsp := Effect.spec hs he hk
  have hfire : ∀ {t j}, (k'.tcb p).tap = ((k.fireTap t j).tcb p).tap →
      (k'.tcb p).vectors = (k.tcb p).vectors := by
    intro t j ht
    rw [Tcb.vectors_congr ht, Kernel.fireTap, Kernel.updTcb_tcb]
    split_ifs with hp
    · rw [Tcb.fireTap_vectors, hp]
    · rfl
  cases f with
  | flag v t j => exact h.congr hsp.pages (hfire (hsp.tap p))
  | wake v t j => exact h.congr hsp.pages (hfire (hsp.tap p))
  | unwait v t j => exact h.congr hsp.pages (hfire (hsp.tap p))
  | setTap => exact hf.elim
  | setSlot => exact hf.elim
  | _ => exact h.congr hsp.pages (Tcb.vectors_congr (hsp.tap p))

theorem fire_vectors (k : Kernel) (v : BitVec 16) (p : Ptr) :
    ((interruptVectorFire k v).tcb p).vectors = (k.tcb p).vectors := by
  by_cases hr : k.Routed v p
  · rw [Tcb.vectors_congr (fire_tap_routed hr)]
    unfold Tcb.notify
    cases (k.tcb p).tapOf v with
    | none => rfl
    | some j => exact Tcb.fireTap_vectors ..
  · exact Tcb.vectors_congr (fire_tap_other hr)

/-- The reset of a vector sets flags only. -/
theorem agree_reset (hv : Vectors k) (hlt : vectorPage v < 128) :
    Agree (interruptVectorReset k v) p ↔ Agree k p := by
  obtain he | ⟨q, -, -, he⟩ := interruptVectorReset_cases hv hlt
  · rw [he]
  · rw [he]
    exact ⟨fun h => h.congr (fire_links k v).1.symm (fire_vectors k v p).symm,
      fun h => h.congr (fire_links k v).1 (fire_vectors k v p)⟩

end Frame

section SetTap

/-- What set_tap needs: the tap that it replaces is unset or carries none of the two upper bits,
and the route of the new vector has a free slot unless the tap is set to it already. -/
structure TapFits (k : Kernel) (i : Fin 4) (v : BitVec 16) : Prop where
  old : (k.tcb k.activeTcb).tap i &&& 0x3FFF ≠ 0 → (k.tcb k.activeTcb).tap i &&& 0xC000 = 0
  free : ∀ r, k.routeOf v = some r → v = (k.tcb k.activeTcb).tap i ∨ ∃ j, r j = 0

theorem retap_vectors (hv : v &&& 0xC000 = 0) :
    ((retap k i v).tcb k.activeTcb).vectors =
      Function.update (k.tcb k.activeTcb).vectors i v := by
  have htap := retap_tap k i v k.activeTcb
  rw [if_pos rfl] at htap
  funext j
  rw [Tcb.vectors, htap]
  by_cases hj : j = i
  · subst hj
    have hlow := low_eq_self hv
    rw [Function.update_self, Function.update_self]
    conv_lhs => rw [← hlow]
    rw [BitVec.and_assoc]
    exact hlow
  · rw [Function.update_of_ne hj, Function.update_of_ne hj]
    rfl

/-- The old tap's route is the one that is taken back. -/
theorem old_tap_iff (hv : Vectors k) (hw : vectorPage w < 128) {r : Fin 4 → Ptr}
    (hr : k.routeOf w = some r)
    (hold : (k.tcb k.activeTcb).tap i &&& 0x3FFF ≠ 0 → (k.tcb k.activeTcb).tap i &&& 0xC000 = 0) :
    ((k.tcb k.activeTcb).tap i &&& 0x3FFF ≠ 0 ∧ w = (k.tcb k.activeTcb).tap i) ↔
      (k.tcb k.activeTcb).vectors i = w := by
  obtain ⟨hlow, hne⟩ := hv.installed hw hr
  constructor
  · rintro ⟨-, rfl⟩
    exact (low_of_installed hv hw hr).1
  · intro he
    have htap : (k.tcb k.activeTcb).tap i &&& 0x3FFF = w := by
      rw [← hlow, ← he, Tcb.vectors, BitVec.and_assoc]
      rfl
    have h0 : (k.tcb k.activeTcb).tap i &&& 0x3FFF ≠ 0 := htap.trans_ne hne
    exact ⟨h0, htap.symm.trans (low_eq_self (hold h0))⟩

theorem Agree.of_retap (h : Agree k k.activeTcb) (hv : Vectors k) (hlow : v &&& 0xC000 = 0)
    (hf : TapFits k i v) (h0 : k.activeTcb ≠ 0) : Agree (retap k i v) k.activeTcb := by
  intro w r' hw hr'
  obtain ⟨r, hr⟩ : ∃ r, k.routeOf w = some r := by
    rw [retap_routeOf, untap_routeOf] at hr'
    cases hr : k.routeOf w with
    | none => simp [hr] at hr'
    | some r => exact ⟨r, rfl⟩
  have hagree := h w r hw hr
  have hupd := tally_update (k.tcb k.activeTcb).vectors i v w
  rw [retap_vectors hlow]
  have hiff := old_tap_iff hv hw hr hf.old
  rw [retap_routeOf, untap_routeOf, hr, if_congr hiff rfl rfl] at hr'
  -- a tap that is set to the vector has its slot
  have hslot : (k.tcb k.activeTcb).vectors i = w → ∃ j, r j = k.activeTcb := fun hi =>
    tally_pos_iff.mp (hagree ▸ tally_pos_iff.mpr ⟨i, hi⟩)
  by_cases hi : (k.tcb k.activeTcb).vectors i = w
  · obtain ⟨hdrop, hzero⟩ := tally_dropSlot (hslot hi) h0
    rw [if_pos hi] at hr' hupd
    by_cases hwv : w = v
    · rw [if_pos hwv] at hr'
      rw [if_pos hwv.symm] at hupd
      obtain rfl := Option.some.inj hr'
      have htake := tally_takeSlot hzero h0
      omega
    · rw [if_neg hwv] at hr'
      rw [if_neg (Ne.symm hwv)] at hupd
      obtain rfl := Option.some.inj hr'
      omega
  · rw [if_neg hi] at hr' hupd
    by_cases hwv : w = v
    · rw [if_pos hwv] at hr'
      rw [if_pos hwv.symm] at hupd
      obtain rfl := Option.some.inj hr'
      have hfree : ∃ j, r j = 0 := by
        refine (hf.free r (hwv ▸ hr)).resolve_left fun hc => hi ?_
        rw [Tcb.vectors, ← hc, ← hwv]
        exact (low_of_installed hv hw hr).1
      have htake := tally_takeSlot hfree h0
      omega
    · rw [if_neg hwv] at hr'
      rw [if_neg (Ne.symm hwv)] at hupd
      obtain rfl := Option.some.inj hr'
      omega

theorem Agree.of_retap_other (h : Agree k p) (hp : p ≠ k.activeTcb) (h0 : p ≠ 0) :
    Agree (retap k i v) p := by
  intro w r' hw hr'
  have htap := retap_tap k i v p
  rw [if_neg hp] at htap
  rw [Tcb.vectors_congr htap]
  rw [retap_routeOf, untap_routeOf] at hr'
  cases hr : k.routeOf w with
  | none => simp [hr] at hr'
  | some r =>
    rw [← h w r hw hr]
    rw [hr] at hr'
    split_ifs at hr'
    · obtain rfl := Option.some.inj hr'
      rw [tally_takeSlot_other _ hp h0, tally_dropSlot_other _ hp h0]
    · obtain rfl := Option.some.inj hr'
      exact tally_takeSlot_other _ hp h0
    · obtain rfl := Option.some.inj hr'
      exact tally_dropSlot_other _ hp h0
    · obtain rfl := Option.some.inj hr'
      rfl

end SetTap

section Events

/-- The vectors by which a call indexes the table of vector pages. -/
def Call.lookups (k : Kernel) : Call → List (BitVec 16)
  | threadExit => [pinionInterruptZombie]
  | interruptReset vec =>
    if ∃ i, ((k.tcb k.activeTcb).tap i &&& ~~~0xC000).setWidth 32 = vec then [vec.setWidth 16]
    else []
  | interruptSetTap index vec =>
    if h : index.toNat < 4 ∧ vec &&& 0xC000 = 0 then
      let old := (k.tcb k.activeTcb).tap (tapIndex index h.1)
      if old &&& 0x3FFF ≠ 0 then [old, vec.setWidth 16] else [vec.setWidth 16]
    else []
  | _ => []

/-- The vectors by which an event indexes the table. -/
def Event.lookups (s : Sys) : Event → List (BitVec 16)
  | .call c => c.lookups s.kernel
  | .interrupt v _ _ => ((faultQueue v).map TcbQueue.vector).toList
  | _ => []

/-- A set_tap finds what it needs, and the block of a new thread agrees with the routes. -/
def KeepsRoutes (P : Platform) (s : Sys) : Event → Prop
  | .call (.interruptSetTap index vec) => vec &&& 0xC000 = 0 → ∀ h : index.toNat < 4,
    TapFits s.kernel (tapIndex index h) (vec.setWidth 16)
  | .call .threadCreate => (apilogicThreadCreate P.pages s.kernel).1 ≠ 0 →
    Agree s.kernel (tcbAlloc P.pages s.kernel).1
  | _ => True

theorem Agree.setTap (h : Agree k p) (hv : Vectors k) (h0 : p ≠ 0) {index vec : BitVec 32}
    (hf : vec &&& 0xC000 = 0 → ∀ h : index.toNat < 4,
      TapFits k (tapIndex index h) (vec.setWidth 16)) :
    Agree (apilogicInterruptSetTap k index vec).2 p := by
  by_cases ha : index.toNat < 4 ∧ vec &&& 0xC000 = 0
  · rw [apilogicInterruptSetTap_accepted ha.1 ha.2]
    have hlow := accepted_low ha.2
    refine (agree_reset (hv.retap _ _) (vectorPage_lt hlow)).mpr ?_
    by_cases hp : p = k.activeTcb
    · subst hp
      exact h.of_retap hv hlow (hf ha.2 ha.1) h0
    · exact h.of_retap_other hp h0
  · rw [apilogicInterruptSetTap_refused ha]
    exact h

theorem Agree.interruptReset (h : Agree k p) (hv : Vectors k) (vec : BitVec 32) :
    Agree (apilogicInterruptReset k vec) p := by
  obtain he | ⟨i, hi, he⟩ := apilogicInterruptReset_cases k vec
  · rwa [he]
  · rw [he]
    have hv' : Vectors (unflag k i) := hv.congr rfl
    have htap := unflag_tap k i p
    refine (agree_reset hv' ?_).mpr (h.congr rfl ?_)
    · apply vectorPage_lt
      rw [hi, BitVec.and_assoc]
      simp
    · split_ifs at htap with hp
      · funext j
        rw [Tcb.vectors, Tcb.vectors, htap]
        by_cases hj : j = i
        · rw [hj, Function.update_self, BitVec.and_assoc]
          rfl
        · rw [Function.update_of_ne hj]
      · exact Tcb.vectors_congr htap

/-- Taps and routes of a block go on to agree. -/
theorem Agree.step (h : Agree s.kernel p) (hs : SysSound P s) (hk : KeepsRoutes P s e)
    (hst : s.step P e = some s') (h0 : p ≠ 0) : Agree s'.kernel p := by
  by_cases hset : ∃ i v, e = .call (.interruptSetTap i v)
  · obtain ⟨i, v, rfl⟩ := hset
    obtain ⟨-, -, r, hb⟩ := hs.step_call hst
    have hkern : (apilogicInterruptSetTap s.kernel i v).2 = s'.kernel :=
      congrArg Prod.snd (Option.some.inj hb)
    exact hkern ▸ h.setTap hs.vectors h0 hk
  · by_cases hreset : ∃ v, e = .call (.interruptReset v)
    · obtain ⟨v, rfl⟩ := hreset
      obtain ⟨-, -, r, hb⟩ := hs.step_call hst
      have hkern : apilogicInterruptReset s.kernel v = s'.kernel :=
        congrArg Prod.snd (Option.some.inj hb)
      exact hkern ▸ h.interruptReset hs.vectors v
    · refine (hs.step hst).2.keep (I := fun a => Agree a p) h hs.sound
        fun a f b ha hsa he hm hb => ha.effect hsa he hb ?_
      cases f with
      | setTap => exact hm.setTap.2.elim hset hreset
      | setSlot => exact hset hm.setSlot.1
      | _ => trivial

/-- No event but a creation makes a thread. -/
theorem step_live (hs : SysSound P s) (hst : s.step P e = some s')
    (hc : e ≠ .call .threadCreate) (hp : s'.kernel.Live p) : s.kernel.Live p := by
  have hkeep := (hs.step hst).2.keep (I := fun a => a.Live p → s.kernel.Live p) id hs.sound ?_
  · exact hkeep hp
  intro a f b ha hsa he hm hb hl
  have htab := (Effect.spec hsa he hb).table
  have hsame : b.tableEntry = a.tableEntry → s.kernel.Live p := by
    intro ht
    rw [Kernel.Live, ht] at hl
    exact ha hl
  cases f with
  | create => exact absurd hm.create hc
  | reap t => exact ha ((htab.live p).mp hl).1
  | _ => exact hsame htab

/-- The taps and routes of all threads agree. -/
def Kernel.Agrees (k : Kernel) : Prop := ∀ p, k.Live p → Agree k p

theorem step_agrees (h : s.kernel.Agrees) (hs : SysSound P s) (hst : s.step P e = some s')
    (hk : KeepsRoutes P s e) : s'.kernel.Agrees := by
  intro p hp
  by_cases hold : s.kernel.Live p
  · exact (h p hold).step hs hk hst hold.1
  · have hc : e = .call .threadCreate := by
      by_contra hc
      exact hold (step_live hs hst hc hp)
    subst hc
    obtain ⟨-, -, r, hb⟩ := hs.step_call hst
    have hkern : (apilogicThreadCreate P.pages s.kernel).2 = s'.kernel :=
      congrArg Prod.snd (Option.some.inj hb)
    rw [← hkern] at hp ⊢
    obtain ⟨run, free, hcoh⟩ := hs.sound
    obtain ⟨t, free', -, hcr⟩ := hcoh.create
    obtain ⟨hi, rfl⟩ := ((hcr.live p).mp hp).resolve_left hold
    have hblock := hk hi
    rw [← hcr.alloc] at hblock
    exact hblock.congr hcr.step.vectorPageTable (Tcb.vectors_congr (hcr.step.tap_eq p))

theorem vectorPage_lt_iff : vectorPage v < 128 ↔ v &&& 0xC000 = 0 := by
  refine ⟨fun h => ?_, vectorPage_lt⟩
  rw [vectorPage_toNat] at h
  have hlow : v &&& 0x3FFF = v := by
    apply BitVec.eq_of_toNat_eq
    rw [BitVec.toNat_and]
    exact (Nat.and_two_pow_sub_one_eq_mod v.toNat 14).trans (Nat.mod_eq_of_lt (by omega))
  rw [← hlow, BitVec.and_assoc]
  simp

theorem step_lookups (hk : KeepsRoutes P s e) : ∀ v ∈ e.lookups s, vectorPage v < 128 := by
  intro v hv
  cases e with
  | call c =>
    cases c with
    | threadExit =>
      obtain rfl := List.mem_singleton.mp hv
      decide
    | interruptReset vec =>
      simp only [Event.lookups, Call.lookups] at hv
      split_ifs at hv with hex
      · obtain ⟨i, hi⟩ := hex
        obtain rfl := List.mem_singleton.mp hv
        apply vectorPage_lt
        rw [← hi, BitVec.setWidth_setWidth_of_le _ (by decide), BitVec.setWidth_eq,
          BitVec.and_assoc]
        simp
      · exact absurd hv (List.not_mem_nil)
    | interruptSetTap index vec =>
      simp only [Event.lookups, Call.lookups] at hv
      split_ifs at hv with ha hold
      · rcases List.mem_cons.mp hv with rfl | hv
        · exact vectorPage_lt ((hk ha.2 ha.1).old hold)
        · obtain rfl := List.mem_singleton.mp hv
          exact vectorPage_lt (accepted_low ha.2)
      · obtain rfl := List.mem_singleton.mp hv
        exact vectorPage_lt (accepted_low ha.2)
      · exact absurd hv (List.not_mem_nil)
    | _ => exact absurd hv (List.not_mem_nil)
  | interrupt iv er cr2 =>
    obtain ⟨q, -, rfl⟩ := Option.map_eq_some_iff.mp (Option.mem_toList.mp hv)
    exact vectorPage_vector q
  | _ => exact absurd hv (List.not_mem_nil)

/-- A tap that gets no slot is one too many. -/
theorem not_agree_retap (h : Agree k k.activeTcb) (hv : Vectors k) (hlow : v &&& 0xC000 = 0)
    (hold : (k.tcb k.activeTcb).tap i &&& 0x3FFF ≠ 0 → (k.tcb k.activeTcb).tap i &&& 0xC000 = 0)
    {r : Fin 4 → Ptr} (hr : k.routeOf v = some r) (hne : v ≠ (k.tcb k.activeTcb).tap i)
    (hfull : ¬ ∃ j, r j = 0) : ¬ Agree (retap k i v) k.activeTcb := by
  have hw := vectorPage_lt hlow
  have hi : (k.tcb k.activeTcb).vectors i ≠ v := fun hc =>
    hne ((old_tap_iff hv hw hr hold).mpr hc).2
  have hroute : (retap k i v).routeOf v = some r := by
    rw [retap_routeOf, if_pos rfl, untap_routeOf, if_neg fun hc => hne hc.2, hr, Option.map_some,
      takeSlot_full hfull]
  have hupd := tally_update (k.tcb k.activeTcb).vectors i v v
  rw [if_pos rfl, if_neg hi] at hupd
  intro h'
  have h1 := h v r hw hr
  have h2 := h' v r hw hroute
  rw [retap_vectors hlow] at h2
  omega

/-- Where taps and routes go on to agree, the event found what it needed. -/
theorem keepsRoutes_of_agrees (h : s.kernel.Agrees) (hs : SysSound P s)
    (hst : s.step P e = some s') (hlook : ∀ v ∈ e.lookups s, vectorPage v < 128)
    (h' : s'.kernel.Agrees) : KeepsRoutes P s e := by
  cases e with
  | call c =>
    obtain ⟨hcall, -, r, hb⟩ := hs.step_call hst
    cases c with
    | interruptSetTap index vec =>
      intro hv hi
      have hkern : (apilogicInterruptSetTap s.kernel index vec).2 = s'.kernel :=
        congrArg Prod.snd (Option.some.inj hb)
      have hlive : s'.kernel.Live s.kernel.activeTcb := by
        refine (hs.step hst).2.keep (I := fun a => a.Live s.kernel.activeTcb) hcall.live hs.sound
          fun a f b ha hsa he hm hb => Effect.live_mono hsa he hb ?_ ha
        rintro x rfl
        obtain ⟨th, he, -⟩ := hm.reap
        cases he
      have hold : (s.kernel.tcb s.kernel.activeTcb).tap (tapIndex index hi) &&& 0x3FFF ≠ 0 →
          (s.kernel.tcb s.kernel.activeTcb).tap (tapIndex index hi) &&& 0xC000 = 0 := by
        intro h0
        refine vectorPage_lt_iff.mp (hlook _ ?_)
        simp only [Event.lookups, Call.lookups]
        rw [dif_pos ⟨hi, hv⟩, if_pos h0]
        exact List.mem_cons_self ..
      refine ⟨hold, fun r hr => ?_⟩
      by_contra hc
      obtain ⟨hne, hfull⟩ := not_or.mp hc
      have hlow := accepted_low hv
      have hagree := h' _ hlive
      rw [← hkern, apilogicInterruptSetTap_accepted hi hv,
        agree_reset (hs.vectors.retap _ _) (vectorPage_lt hlow)] at hagree
      exact not_agree_retap (h _ hcall.live) hs.vectors hlow hold hr hne hfull hagree
    | threadCreate =>
      intro hi
      have hkern : (apilogicThreadCreate P.pages s.kernel).2 = s'.kernel :=
        congrArg Prod.snd (Option.some.inj hb)
      obtain ⟨run, free, hcoh⟩ := hs.sound
      obtain ⟨t, free', -, hcr⟩ := hcoh.create
      rw [← hcr.alloc]
      have hagree := h' t (hkern ▸ (hcr.live t).mpr (Or.inr ⟨hi, rfl⟩))
      rw [← hkern] at hagree
      exact hagree.congr hcr.step.vectorPageTable.symm (Tcb.vectors_congr (hcr.step.tap_eq t).symm)
    | _ => trivial
  | _ => trivial

/-- A thread that agrees with the routes hears of the vectors it taps. -/
theorem Agree.fires (h : Agree k t) (hv : Vectors k) (h0 : t ≠ 0) (hlt : vectorPage v < 128)
    {r : Fin 4 → Ptr} (hr : k.routeOf v = some r) (ht : ∃ j, (k.tcb t).vectors j = v) :
    ((interruptVectorFire k v).tcb t).HasFired v := by
  obtain ⟨i, hi⟩ := tally_pos_iff.mp (h v r hlt hr ▸ tally_pos_iff.mpr ht)
  obtain ⟨j, hj⟩ := ht
  refine fire_hasFired ⟨h0, r, hr, i, hi⟩ ⟨j, ?_⟩
  rw [Tcb.vectors] at hj
  rw [← (hv.installed hlt hr).1]
  conv_rhs => rw [← hj]
  rw [BitVec.and_assoc]
  rfl

/-- A set_tap that has returned true has set the tap. -/
theorem setTap_vectors (hv : Vectors k) {index vec : BitVec 32}
    (ht : (apilogicInterruptSetTap k index vec).1 = true) :
    vectorPage (vec.setWidth 16) < 128 ∧
      ∃ j, ((apilogicInterruptSetTap k index vec).2.tcb k.activeTcb).vectors j =
        vec.setWidth 16 := by
  have ha : index.toNat < 4 ∧ vec &&& 0xC000 = 0 := by
    by_contra hc
    rw [apilogicInterruptSetTap_refused hc] at ht
    cases ht
  have hlow := accepted_low ha.2
  have hlt := vectorPage_lt hlow
  refine ⟨hlt, tapIndex index ha.1, ?_⟩
  have hset : ((retap k (tapIndex index ha.1) (vec.setWidth 16)).tcb k.activeTcb).vectors
      (tapIndex index ha.1) = vec.setWidth 16 := by
    rw [retap_vectors hlow, Function.update_self]
  rw [apilogicInterruptSetTap_accepted ha.1 ha.2]
  obtain he | ⟨q, -, -, he⟩ := interruptVectorReset_cases (hv.retap _ _) hlt
  · rw [he]
    exact hset
  · rw [he, fire_vectors]
    exact hset

/-- As long as every set_tap replaces an unset or unfired tap and finds a free slot, and blocks
that become threads agree with the routes, taps and routes of all threads agree, no lookup leaves
the table, and the vectors that set_tap has accepted are heard; the first event for which this
fails is one that does not find what it needs. -/
theorem taps_routes_agree (b : Boot P) (h0 : Agree b.sys.kernel b.sys.active)
    (hr : Run (Sys.step P) (KeepsRoutes P) b.sys s) :
    s.kernel.Agrees ∧
      (∀ e s', s.step P e = some s' →
        ((∀ v ∈ e.lookups s, vectorPage v < 128) ∧ s'.kernel.Agrees ↔ KeepsRoutes P s e)) ∧
      (∀ t v r, s.kernel.Live t → vectorPage v < 128 → s.kernel.routeOf v = some r →
        (∃ j, (s.kernel.tcb t).vectors j = v) →
        ((interruptVectorFire s.kernel v).tcb t).HasFired v) ∧
      ∀ index vec s' r, s.step P (.call (.interruptSetTap index vec)) = some s' →
        KeepsRoutes P s (.call (.interruptSetTap index vec)) →
        (apilogicInterruptSetTap s.kernel index vec).1 = true →
        s'.kernel.routeOf (vec.setWidth 16) = some r →
        ((interruptVectorFire s'.kernel (vec.setWidth 16)).tcb s.active).HasFired
          (vec.setWidth 16) := by
  have hboth : SysSound P s ∧ s.kernel.Agrees := by
    refine hr.invariant (I := fun a => SysSound P a ∧ a.kernel.Agrees) ⟨b.sys_sound, ?_⟩
      fun a e c ha hk hc => ⟨(ha.1.step hc).1, step_agrees ha.2 ha.1 hc hk⟩
    intro p hp
    obtain rfl := (b.init_booted.live p).mp hp
    exact h0
  obtain ⟨hs, ha⟩ := hboth
  refine ⟨ha, fun e s' hst => ⟨fun h => keepsRoutes_of_agrees ha hs hst h.1 h.2,
    fun hk => ⟨step_lookups hk, step_agrees ha hs hst hk⟩⟩,
    fun t v r ht hlt hro htap => (ha t ht).fires hs.vectors ht.1 hlt hro htap,
    fun index vec s' r hst hk htrue hro => ?_⟩
  obtain ⟨hcall, -, rep, hb⟩ := hs.step_call hst
  have hkern : (apilogicInterruptSetTap s.kernel index vec).2 = s'.kernel :=
    congrArg Prod.snd (Option.some.inj hb)
  obtain ⟨hlt, htap⟩ := setTap_vectors hs.vectors htrue
  rw [hkern] at htap
  exact ((ha _ hcall.live).step hs hk hst hcall.live.1).fires (hs.step hst).1.vectors
    hcall.live.1 hlt hro htap

/-- A first thread whose block comes without taps agrees with the routes. -/
theorem Booted.agree (h : Booted P k) (ht : ∀ j, (k.tcb k.activeTcb).tap j = 0) :
    Agree k k.activeTcb := by
  intro v r hlt hr
  have hslots : ¬ ∃ i, r i = k.activeTcb := fun ⟨i, hi⟩ =>
    h.active (hi.symm.trans (h.routes v hlt r hr i))
  have htaps : ¬ ∃ j, (k.tcb k.activeTcb).vectors j = v := by
    rintro ⟨j, hj⟩
    refine (h.vectors.installed hlt hr).2 ?_
    rw [← hj, Tcb.vectors, ht]
    decide
  rw [← tally_pos_iff, Nat.not_lt, Nat.le_zero] at hslots htaps
  rw [hslots, htaps]

theorem lowBoot_agree : Agree lowBoot.sys.kernel lowBoot.sys.active :=
  lowBoot.init_booted.agree (by decide +kernel)

instance (k : Kernel) (i : Fin 4) (v : BitVec 16) : Decidable (TapFits k i v) :=
  decidable_of_iff (((k.tcb k.activeTcb).tap i &&& 0x3FFF ≠ 0 →
    (k.tcb k.activeTcb).tap i &&& 0xC000 = 0) ∧ (k.routeOf v).all (fun r =>
      decide (v = (k.tcb k.activeTcb).tap i ∨ ∃ j, r j = 0)) = true) <| by
    rw [Option.all_eq_true]
    simp only [decide_eq_true_eq]
    exact ⟨fun h => ⟨h.1, h.2⟩, fun h => ⟨h.old, h.free⟩⟩

/-- The events of a run in which no thread is made, as a test. -/
def fitsTest (s : Sys) : Event → Bool
  | .call (.interruptSetTap index vec) => decide (vec &&& 0xC000 = 0 → ∀ h : index.toNat < 4,
    TapFits s.kernel (tapIndex index h) (vec.setWidth 16))
  | .call .threadCreate => false
  | _ => true

theorem keepsRoutes_of_test (h : fitsTest s e = true) : KeepsRoutes P s e := by
  cases e with
  | call c =>
    cases c with
    | interruptSetTap index vec =>
      simp only [fitsTest, decide_eq_true_eq] at h
      exact h
    | threadCreate => cases h
    | _ => trivial
  | _ => trivial

/-- Thread 1 taps page faults and moves the tap to interrupt 0x105. -/
theorem taps_routes_agree_moved_tap : ∃ s, (s.kernel.tcb s.active).tap 0 = 0x105 ∧
    s.kernel.Agrees ∧
      (∀ e s', s.step lowPlatform e = some s' →
        ((∀ v ∈ e.lookups s, vectorPage v < 128) ∧ s'.kernel.Agrees ↔
          KeepsRoutes lowPlatform s e)) ∧
      (∀ t v r, s.kernel.Live t → vectorPage v < 128 → s.kernel.routeOf v = some r →
        (∃ j, (s.kernel.tcb t).vectors j = v) →
        ((interruptVectorFire s.kernel v).tcb t).HasFired v) ∧
      ∀ index vec s' r, s.step lowPlatform (.call (.interruptSetTap index vec)) = some s' →
        KeepsRoutes lowPlatform s (.call (.interruptSetTap index vec)) →
        (apilogicInterruptSetTap s.kernel index vec).1 = true →
        s'.kernel.routeOf (vec.setWidth 16) = some r →
        ((interruptVectorFire s'.kernel (vec.setWidth 16)).tcb s.active).HasFired
          (vec.setWidth 16) := by
  obtain ⟨s, hr, hs⟩ := Run.exists_of_guarded (Sys.step lowPlatform)
    (fun s e => fitsTest s e = true) lowBoot.sys
    [.call (.interruptSetTap 0 0x80), .call (.interruptSetTap 0 0x105)]
    (fun s => decide ((s.kernel.tcb s.active).tap 0 = 0x105)) (by decide +kernel)
  exact ⟨s, of_decide_eq_true hs,
    taps_routes_agree lowBoot lowBoot_agree (hr.mono fun _ _ => keepsRoutes_of_test)⟩

/-- Thread 1 taps exits. Thread 2 exits, and thread 1 unsets the tap, which has fired: its slot in
the route stays. -/
theorem fired_tap_leaves_slot : ¬ ∀ (P : Platform) (b : Boot P) (s : Sys),
    Agree b.sys.kernel b.sys.active → Reach b s → s.kernel.Agrees := by
  intro h
  obtain ⟨s, hr, hs⟩ := Run.exists_of_exec (Sys.step lowPlatform) lowBoot.sys
    [.call (.interruptSetTap 0 0x82), .call .threadCreate, .yield, .ret, .call (.threadResume 2),
      .yield, .call .threadExit, .yield, .ret, .call (.interruptSetTap 0 0)]
    (fun s => decide (s.active ≠ lowPlatform.idleTcb ∧ s.kernel.Routed 0x82 s.active ∧
      ∀ j, (s.kernel.tcb s.active).vectors j ≠ 0x82)) (by decide +kernel)
  obtain ⟨hi, ⟨-, r, hroute, hslot⟩, htaps⟩ := of_decide_eq_true hs
  have hsound := Reach.sound hr
  have hlive : s.kernel.Live s.active := by
    obtain ⟨run, free, hc⟩ := hsound.sound
    exact (hc.active.resolve_left hsound.active).1.resolve_right hi
  have hagree := h lowPlatform lowBoot s lowBoot_agree hr s.active hlive 0x82 r (by decide) hroute
  exact (not_exists.mpr htaps) (tally_pos_iff.mp (hagree ▸ tally_pos_iff.mpr hslot))

end Events
end Pinion64
