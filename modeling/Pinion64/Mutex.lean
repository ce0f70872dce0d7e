import Pinion64.Pmm
import Pinion64.Lib.Run
import Pinion64.Lib.Tso

/-! The mutexes of mutex.s, instruction by instruction, on any number of cores with store buffers.
What a core finds in the data that a mutex protects is what the last holder left there. -/
namespace Pinion64
open Transition Tso

section Definitions

inductive MutexRoutine
  | trylock
  | acquire
  deriving DecidableEq

/-- The next instruction of a core. -/
inductive Spot
  | caller
  /-- mov al, [rdi] -/
  | load (r : MutexRoutine)
  /-- test al, al -/
  | test (r : MutexRoutine)
  /-- lock cmpxchg [rdi], cl -/
  | cmpxchg (r : MutexRoutine)
  /-- test al, al -/
  | retest (r : MutexRoutine)
  /-- mov [rdi], al -/
  | clear
  deriving DecidableEq

structure MutexCore where
  spot : Spot
  al : BitVec 8
  rax : Word
  /-- The caller has been told that it has the mutex, and has not called mutex_release since. -/
  held : Bool

/-- The cores around one mutex. -/
structure Smp (κ : Type*) where
  shared : Shared κ Ptr (BitVec 8)
  core : κ → MutexCore

inductive SmpEvent (κ : Type*)
  | call (c : κ) (r : MutexRoutine)
  | release (c : κ)
  /-- The next instruction of a routine. -/
  | step (c : κ)
  /-- A holder stores to the data that the mutex protects. -/
  | write (c : κ) (a : Ptr) (v : BitVec 8)
  /-- The oldest store of a core drains. -/
  | flush (c : κ)

variable {κ : Type*} [DecidableEq κ]

/-- Where a routine goes on with a mutex that was taken. -/
def MutexCore.taken (x : MutexCore) : MutexRoutine → MutexCore
  | .trylock => { x with spot := .caller, rax := 0 }
  | .acquire => { x with spot := .load .acquire }

/-- Where a routine returns with the mutex. -/
def MutexCore.won (x : MutexCore) : MutexRoutine → MutexCore
  | .trylock => { x with spot := .caller, rax := 1, held := true }
  | .acquire => { x with spot := .caller, held := true }

namespace Smp

def setCore (s : Smp κ) (c : κ) (x : MutexCore) : Smp κ :=
  { s with core := Function.update s.core c x }

/-- One instruction of a routine; `cl` is 1 from its first one on. -/
def instr (mutex : Ptr) (s : Smp κ) (c : κ) : Option (Smp κ) :=
  let x := s.core c
  match x.spot with
  | .caller => none
  | .load r => some (s.setCore c { x with spot := .test r, al := s.shared.read c mutex })
  | .test r =>
    some (s.setCore c (if x.al ≠ 0 then x.taken r else { x with spot := .cmpxchg r }))
  | .cmpxchg r =>
    let b := s.shared.mem mutex
    (s.shared.locked c mutex fun b => if b = x.al then 1 else b).map fun sh =>
      { s with shared := sh }.setCore c
        { x with spot := .retest r, al := if b = x.al then x.al else b }
  | .retest r =>
    some (s.setCore c (if x.al ≠ 0 then x.taken r else x.won r))
  | .clear =>
    some ({ s with shared := s.shared.store c mutex 0 }.setCore c { x with spot := .caller, al := 0 })

def step (mutex : Ptr) (s : Smp κ) : SmpEvent κ → Option (Smp κ)
  | .call c r =>
    if (s.core c).spot = .caller ∧ (s.core c).held = false then
      some (s.setCore c { s.core c with spot := .load r })
    else none
  | .release c =>
    if (s.core c).spot = .caller ∧ (s.core c).held = true then
      some (s.setCore c { s.core c with spot := .clear, held := false })
    else none
  | .step c => s.instr mutex c
  | .write c a v =>
    if (s.core c).spot = .caller ∧ (s.core c).held = true ∧ a ≠ mutex then
      some { s with shared := s.shared.store c a v }
    else none
  | .flush c => (s.shared.flush c).map fun sh => { s with shared := sh }

/-- Nobody has called the routines, and every store has drained. -/
def start (κ : Type*) (m : Ptr → BitVec 8) : Smp κ :=
  ⟨⟨m, fun _ => []⟩, fun _ => ⟨.caller, 0, 0, false⟩⟩

end Smp

/-- A mutex as its users see it, with the data that it protects. -/
structure Lock (κ : Type*) where
  owner : Option κ
  data : Ptr → BitVec 8

inductive LockEvent (κ : Type*)
  | take (c : κ)
  | give (c : κ)
  | put (c : κ) (a : Ptr) (v : BitVec 8)

def Lock.step (l : Lock κ) : LockEvent κ → Option (Lock κ)
  | .take c => if l.owner = none then some { l with owner := some c } else none
  | .give c => if l.owner = some c then some { l with owner := none } else none
  | .put c a v =>
    if l.owner = some c then some { l with data := Function.update l.data a v } else none

/-- The mutex is taken by the locked instruction that finds it free, and given back when the store of
mutex_release drains. -/
def Smp.act (mutex : Ptr) (s : Smp κ) : SmpEvent κ → Option (LockEvent κ)
  | .step c =>
    match (s.core c).spot with
    | .cmpxchg _ => if s.shared.mem mutex = (s.core c).al then some (.take c) else none
    | _ => none
  | .write c a v => some (.put c a v)
  | .flush c => if (s.shared.buf c).head?.map Prod.fst = some mutex then some (.give c) else none
  | _ => none

/-- The cores beside the mutex that they should implement. -/
structure Guarded (κ : Type*) where
  smp : Smp κ
  lock : Lock κ

def Guarded.step (mutex : Ptr) (w : Guarded κ) (e : SmpEvent κ) : Option (Guarded κ) :=
  (w.smp.step mutex e).bind fun s =>
    match w.smp.act mutex e with
    | some a => (w.lock.step a).map fun l => ⟨s, l⟩
    | none => some ⟨s, w.lock⟩

end Definitions

variable {κ : Type*} {mutex : Ptr} {s s' : Smp κ} {l l' : Lock κ} {c d : κ} {e : SmpEvent κ}
  {r : MutexRoutine}

section Relation

/-- The mutex is the core's: it has been told so, or is about to, or to give it back. -/
def MutexCore.Inside (x : MutexCore) : Prop :=
  x.held = true ∨ x.spot = .clear ∨ (∃ r, x.spot = .retest r) ∧ x.al = 0

theorem MutexCore.not_inside {x : MutexCore} (h1 : x.held = false) (h2 : x.spot ≠ .clear)
    (h3 : ∀ r, x.spot = .retest r → x.al ≠ 0) : ¬ x.Inside := by
  rintro (h | h | ⟨⟨r, h⟩, h0⟩)
  · rw [h1] at h
    cases h
  · exact h2 h
  · exact h3 r h h0

/-- The byte and the buffers implement the owner, and the owner sees the data. -/
structure Implements (mutex : Ptr) (s : Smp κ) (l : Lock κ) : Prop where
  free : s.shared.mem mutex = 0 ↔ l.owner = none
  buf : ∀ c, s.shared.buf c ≠ [] → l.owner = some c
  inside : ∀ c, (s.core c).Inside → l.owner = some c ∧ ¬ s.shared.Pending c mutex
  released : ∀ c v pre post, s.shared.buf c = pre ++ (mutex, v) :: post → v = 0 ∧ post = []
  held : ∀ c, (s.core c).held = true → (s.core c).spot = .caller
  checked : ∀ c r, (s.core c).spot = .cmpxchg r → (s.core c).al = 0
  data : ∀ c, l.owner = none ∨ l.owner = some c → ∀ a, a ≠ mutex → s.shared.read c a = l.data a

theorem implements_start (m : Ptr → BitVec 8) (h : m mutex = 0) :
    Implements mutex (Smp.start κ m) ⟨none, m⟩ where
  free := ⟨fun _ => rfl, fun _ => h⟩
  buf _ hc := absurd rfl hc
  inside c hc := by
    rcases hc with hc | hc | ⟨⟨r, hc⟩, -⟩ <;> cases hc
  released c v pre post hc := by
    have hlen := congrArg List.length hc
    simp [Smp.start] at hlen
  held c hc := by cases hc
  checked c r hc := by cases hc
  data _ _ _ _ := rfl

theorem Implements.empty (h : Implements mutex s l) (ho : l.owner = none) (d : κ) :
    s.shared.buf d = [] := by
  by_contra hd
  have howner := h.buf d hd
  rw [ho] at howner
  cases howner

theorem Implements.not_held (h : Implements mutex s l) (hc : (s.core c).spot ≠ .caller) :
    (s.core c).held = false :=
  Bool.eq_false_of_not_eq_true fun hh => hc (h.held c hh)

theorem Implements.outside (h : Implements mutex s l) (ho : l.owner = none) (d : κ) :
    ¬ (s.core d).Inside := by
  intro hd
  have howner := (h.inside d hd).1
  rw [ho] at howner
  cases howner

variable [DecidableEq κ]

@[simp] theorem Smp.setCore_shared (s : Smp κ) (c : κ) (x : MutexCore) :
    (s.setCore c x).shared = s.shared := rfl

theorem Smp.setCore_core (s : Smp κ) (c : κ) (x : MutexCore) (d : κ) :
    (s.setCore c x).core d = if d = c then x else s.core d := by
  by_cases h : d = c
  · rw [if_pos h, h]
    exact Function.update_self ..
  · rw [if_neg h]
    exact Function.update_of_ne h ..

/-- A core goes on without a store. -/
theorem Implements.setCore {x : MutexCore} (h : Implements mutex s l)
    (hx : x.Inside → l.owner = some c ∧ ¬ s.shared.Pending c mutex)
    (hh : x.held = true → x.spot = .caller) (hc : ∀ r, x.spot = .cmpxchg r → x.al = 0) :
    Implements mutex (s.setCore c x) l where
  free := h.free
  buf := h.buf
  inside d hd := by
    rw [Smp.setCore_core] at hd
    split_ifs at hd with hdc
    · rw [hdc]
      exact hx hd
    · exact h.inside d hd
  released := h.released
  held d hd := by
    rw [Smp.setCore_core] at hd ⊢
    split_ifs at hd ⊢ with hdc
    · exact hh hd
    · exact h.held d hd
  checked d r hd := by
    rw [Smp.setCore_core] at hd ⊢
    split_ifs at hd ⊢ with hdc
    · exact hc r hd
    · exact h.checked d r hd
  data := h.data

end Relation

section Steps
variable [DecidableEq κ]

/-- A store of the owner goes to its buffer, the one to the mutex behind all others. -/
theorem Implements.store {a : Ptr} {v : BitVec 8} {x : MutexCore} {f : Ptr → BitVec 8}
    (h : Implements mutex s l) (ho : l.owner = some c) (hp : ¬ s.shared.Pending c mutex)
    (ha : a = mutex → v = 0 ∧ ¬ x.Inside) (hx : x.spot = .caller)
    (hf : ∀ y, y ≠ mutex → f y = Function.update l.data a v y) :
    Implements mutex ({ s with shared := s.shared.store c a v }.setCore c x)
      { l with data := f } where
  free := h.free
  buf d hd := by
    by_cases hdc : d = c
    · rw [hdc]
      exact ho
    · exact h.buf d (Shared.store_buf_of_ne (s := s.shared) hdc ▸ hd)
  inside d hd := by
    rw [Smp.setCore_core] at hd
    split_ifs at hd with hdc
    · refine ⟨hdc ▸ ho, fun hpend => ?_⟩
      rw [hdc, Shared.Pending] at hpend
      simp only [Smp.setCore_shared, Shared.store_buf_self, List.map_append, List.mem_append,
        List.map_cons, List.map_nil, List.mem_singleton] at hpend
      rcases hpend with hpend | hpend
      · exact hp hpend
      · exact (ha hpend.symm).2 hd
    · refine ⟨(h.inside d hd).1, ?_⟩
      rw [Shared.Pending, Smp.setCore_shared, Shared.store_buf_of_ne hdc]
      exact (h.inside d hd).2
  released d w pre post hd := by
    by_cases hdc : d = c
    · rw [hdc, Smp.setCore_shared, Shared.store_buf_self] at hd
      rcases List.eq_nil_or_concat post with rfl | ⟨post, z, rfl⟩
      · obtain ⟨-, hlast⟩ := List.append_inj' hd rfl
        obtain ⟨rfl, rfl⟩ := Prod.mk.inj (List.cons.inj hlast).1
        exact ⟨(ha rfl).1, rfl⟩
      · rw [List.concat_eq_append, ← List.cons_append, ← List.append_assoc] at hd
        obtain ⟨hinit, -⟩ := List.append_inj' hd rfl
        exact absurd (by simp [Shared.Pending, hinit]) hp
    · exact h.released d w pre post (Shared.store_buf_of_ne (s := s.shared) hdc ▸ hd)
  held d hd := by
    rw [Smp.setCore_core] at hd ⊢
    split_ifs at hd ⊢ with hdc
    · exact hx
    · exact h.held d hd
  checked d r hd := by
    rw [Smp.setCore_core] at hd ⊢
    split_ifs at hd ⊢ with hdc
    · rw [hx] at hd
      cases hd
    · exact h.checked d r hd
  data d hd y hy := by
    rw [ho] at hd
    obtain rfl : c = d := by simpa using hd
    rw [Smp.setCore_shared, Shared.store_read_self]
    refine Eq.trans ?_ (hf y hy).symm
    by_cases hya : y = a
    · rw [hya, Function.update_self, Function.update_self]
    · rw [Function.update_of_ne hya, Function.update_of_ne hya]
      exact h.data c (Or.inr ho) y hy

/-- The locked instruction takes a free mutex. -/
theorem Implements.take (h : Implements mutex s l) (hspot : (s.core c).spot = .cmpxchg r)
    (h0 : s.shared.mem mutex = 0) (hs : s.instr mutex c = some s') :
    l.owner = none ∧ Implements mutex s' { l with owner := some c } := by
  have hal := h.checked c r hspot
  have hnone := h.free.mp h0
  simp only [Smp.instr, hspot, Option.map_eq_some_iff, hal, h0, if_true] at hs
  obtain ⟨sh, hlock, rfl⟩ := hs
  obtain ⟨-, rfl⟩ := Shared.locked_cases hlock
  refine ⟨hnone, ?_, fun d hd => absurd (h.empty hnone d) hd, fun d hd => ?_,
    fun d v pre post hd => ?_, fun d hd => ?_, fun d r' hd => ?_, fun d _ a ha => ?_⟩
  · simp [h0]
  · rw [Smp.setCore_core] at hd
    split_ifs at hd with hdc
    · rw [hdc]
      refine ⟨rfl, ?_⟩
      rw [Shared.Pending, Smp.setCore_shared, h.empty hnone c]
      exact List.not_mem_nil
    · exact absurd hd (h.outside hnone d)
  · rw [Smp.setCore_shared, h.empty hnone d] at hd
    exact absurd hd (by simp)
  · rw [Smp.setCore_core] at hd ⊢
    split_ifs at hd ⊢ with hdc
    · rw [h.held c hd] at hspot
      cases hspot
    · exact h.held d hd
  · rw [Smp.setCore_core] at hd ⊢
    split_ifs at hd ⊢ with hdc
    exact h.checked d r' hd
  · exact (Shared.locked_read_of_ne hlock ha).trans (h.data d (Or.inl hnone) a ha)

/-- It leaves a mutex that is taken, and tells its core so. -/
theorem Implements.busy (h : Implements mutex s l) (hspot : (s.core c).spot = .cmpxchg r)
    (h0 : s.shared.mem mutex ≠ 0) (hs : s.instr mutex c = some s') : Implements mutex s' l := by
  have hal := h.checked c r hspot
  simp only [Smp.instr, hspot, Option.map_eq_some_iff, hal, if_neg h0] at hs
  obtain ⟨sh, hlock, rfl⟩ := hs
  obtain ⟨-, hsame⟩ := Shared.locked_cases hlock
  rw [if_neg h0, Function.update_eq_self] at hsame
  subst hsame
  have hheld := h.not_held (by rw [hspot]; simp)
  refine h.setCore (fun hin => absurd hin (MutexCore.not_inside hheld (by simp) fun _ _ => h0))
    (fun hc => ?_) fun r' hr => by cases hr
  exact absurd (hheld.symm.trans hc) (by decide)

/-- A store that drains leaves the mutex with its owner, unless it is the one of mutex_release. -/
theorem Implements.flush (h : Implements mutex s l) {sh : Shared κ Ptr (BitVec 8)}
    (hs : s.shared.flush c = some sh) :
    l.owner = some c ∧
      if (s.shared.buf c).head?.map Prod.fst = some mutex then
        Implements mutex { s with shared := sh } { l with owner := none }
      else Implements mutex { s with shared := sh } l := by
  obtain ⟨a, v, rest, hbuf, hsh⟩ := Shared.flush_cases hs
  have ho : l.owner = some c := h.buf c (by simp [hbuf])
  have hother : ∀ d, d ≠ c → s.shared.buf d = [] := by
    intro d hd
    by_contra hne
    exact hd (Option.some.inj ((h.buf d hne).symm.trans ho))
  have hbuf' : ∀ d, sh.buf d = if d = c then rest else [] := by
    intro d
    rw [hsh]
    split_ifs with hd
    · rw [hd]
      exact Function.update_self ..
    · exact (Function.update_of_ne hd ..).trans (hother d hd)
  have hview : ∀ y, y ≠ mutex → sh.read c y = l.data y := fun y hy =>
    (congrFun (Shared.flush_read_self hs) y).trans (h.data c (Or.inr ho) y hy)
  refine ⟨ho, ?_⟩
  rw [hbuf]
  split_ifs with ha
  · obtain rfl : a = mutex := by simpa using ha
    obtain ⟨rfl, rfl⟩ := h.released c v [] rest hbuf
    have hempty : ∀ d, sh.buf d = [] := fun d => (hbuf' d).trans (ite_self _)
    refine ⟨⟨fun _ => rfl, fun _ => ?_⟩, fun d hd => absurd (hempty d) hd, fun d hd => ?_,
      fun d w pre post hd => ?_, h.held, h.checked, fun d _ y hy => ?_⟩
    · rw [hsh]
      exact Function.update_self ..
    · obtain ⟨hd, hp⟩ := h.inside d hd
      obtain rfl := Option.some.inj (ho.symm.trans hd)
      exact absurd (by simp [Shared.Pending, hbuf]) hp
    · rw [hempty] at hd
      exact absurd hd (by simp)
    · have hread : ∀ x, sh.read x = sh.mem := fun x => by
        funext z
        rw [Shared.read, hempty]
        rfl
      rw [hread, ← hread c]
      exact hview y hy
  · have hne : mutex ≠ a := fun hc => ha (by simp [hc])
    refine ⟨?_, fun d hd => ?_, fun d hd => ?_, fun d w pre post hd => ?_, h.held,
      h.checked, fun d hd y hy => ?_⟩
    · rw [hsh]
      exact (Eq.congr (Function.update_of_ne hne ..) rfl).trans h.free
    · rw [hbuf'] at hd
      split_ifs at hd with hdc
      · rw [hdc]
        exact ho
      · exact absurd rfl hd
    · obtain ⟨hd, hp⟩ := h.inside d hd
      refine ⟨hd, fun hpend => hp ?_⟩
      rw [Shared.Pending, hbuf'] at hpend
      split_ifs at hpend with hdc
      · rw [Shared.Pending, hdc, hbuf]
        exact List.mem_cons_of_mem _ hpend
      · exact absurd hpend List.not_mem_nil
    · rw [hbuf'] at hd
      split_ifs at hd with hdc
      · exact h.released c w ((a, v) :: pre) post (by rw [hbuf, hd]; rfl)
      · exact absurd hd (by simp)
    · rw [ho] at hd
      obtain rfl : c = d := by simpa using hd
      exact hview y hy

theorem MutexCore.taken_spot (x : MutexCore) (r : MutexRoutine) :
    (x.taken r).spot = .caller ∨ (x.taken r).spot = .load .acquire := by
  cases r with
  | trylock => exact Or.inl rfl
  | acquire => exact Or.inr rfl

theorem MutexCore.taken_held (x : MutexCore) (r : MutexRoutine) : (x.taken r).held = x.held := by
  cases r <;> rfl

theorem MutexCore.won_spot (x : MutexCore) (r : MutexRoutine) : (x.won r).spot = .caller := by
  cases r <;> rfl

/-- A routine that finds the mutex taken goes on without it. -/
theorem Implements.taken (h : Implements mutex s l) (hheld : (s.core c).held = false)
    (r : MutexRoutine) : Implements mutex (s.setCore c ((s.core c).taken r)) l := by
  have hspot := (s.core c).taken_spot r
  have hout : ¬ ((s.core c).taken r).Inside := by
    refine MutexCore.not_inside (((s.core c).taken_held r).trans hheld) ?_ ?_
    · rcases hspot with hspot | hspot <;> simp [hspot]
    · rcases hspot with hspot | hspot <;> simp [hspot]
  refine h.setCore (fun hin => absurd hin hout) (fun hh => ?_) fun r' hr => ?_
  · rw [MutexCore.taken_held, hheld] at hh
    cases hh
  · rcases hspot with hspot | hspot <;> simp [hspot] at hr

/-- An instruction that is not the locked one does nothing that the users of the mutex see. -/
theorem Implements.instr (h : Implements mutex s l) (hspot : ∀ r, (s.core c).spot ≠ .cmpxchg r)
    (hs : s.instr mutex c = some s') : Implements mutex s' l := by
  rw [Smp.instr] at hs
  cases hx : (s.core c).spot with
  | caller => simp [hx] at hs
  | load r =>
    have hheld := h.not_held (by rw [hx]; simp)
    simp only [hx] at hs
    obtain rfl := Option.some.inj hs
    exact h.setCore (fun hin => absurd hin (MutexCore.not_inside hheld (by simp) (by simp)))
      (fun hh => absurd (hheld.symm.trans hh) (by decide)) (by simp)
  | test r =>
    have hheld := h.not_held (by rw [hx]; simp)
    simp only [hx] at hs
    obtain rfl := Option.some.inj hs
    split_ifs with hal
    · exact h.taken hheld r
    · exact h.setCore (fun hin => absurd hin (MutexCore.not_inside hheld (by simp) (by simp)))
        (fun hh => absurd (hheld.symm.trans hh) (by decide)) fun _ _ => not_not.mp hal
  | cmpxchg r => exact absurd hx (hspot r)
  | retest r =>
    have hheld := h.not_held (by rw [hx]; simp)
    simp only [hx] at hs
    obtain rfl := Option.some.inj hs
    split_ifs with hal
    · exact h.taken hheld r
    · have hwon := h.inside c (Or.inr (Or.inr ⟨⟨r, hx⟩, not_not.mp hal⟩))
      refine h.setCore (fun _ => hwon) (fun _ => MutexCore.won_spot ..) fun r' hr => ?_
      rw [MutexCore.won_spot] at hr
      cases hr
  | clear =>
    have hheld := h.not_held (by rw [hx]; simp)
    obtain ⟨ho, hp⟩ := h.inside c (Or.inr (Or.inl hx))
    simp only [hx] at hs
    obtain rfl := Option.some.inj hs
    exact h.store ho hp (fun _ => ⟨rfl, MutexCore.not_inside hheld (by simp) (by simp)⟩) rfl
      fun y hy => (Function.update_of_ne hy ..).symm

/-- Every step of the cores is a step of the mutex that they implement, or none. -/
theorem Implements.step (h : Implements mutex s l) (hs : s.step mutex e = some s') :
    ∃ l', Guarded.step mutex ⟨s, l⟩ e = some ⟨s', l'⟩ ∧ Implements mutex s' l' := by
  simp only [Guarded.step, hs, Option.bind_some]
  cases e with
  | call c r =>
    simp only [Smp.step, Option.ite_none_right_eq_some] at hs
    obtain ⟨⟨-, hheld⟩, hs⟩ := hs
    obtain rfl := Option.some.inj hs
    refine ⟨l, rfl, h.setCore (fun hin => absurd hin ?_) (fun hh => ?_) (by simp)⟩
    · exact MutexCore.not_inside hheld (by simp) (by simp)
    · exact absurd (hheld.symm.trans hh) (by decide)
  | release c =>
    simp only [Smp.step, Option.ite_none_right_eq_some] at hs
    obtain ⟨⟨-, hheld⟩, hs⟩ := hs
    obtain rfl := Option.some.inj hs
    exact ⟨l, rfl, h.setCore (fun _ => h.inside c (Or.inl hheld)) (by simp) (by simp)⟩
  | step c =>
    by_cases hspot : ∃ r, (s.core c).spot = .cmpxchg r
    · obtain ⟨r, hspot⟩ := hspot
      have hal := h.checked c r hspot
      by_cases h0 : s.shared.mem mutex = 0
      · obtain ⟨hnone, himp⟩ := h.take hspot h0 hs
        refine ⟨_, ?_, himp⟩
        simp [Smp.act, hspot, h0, hal, Lock.step, hnone]
      · refine ⟨l, ?_, h.busy hspot h0 hs⟩
        simp only [Smp.act, hspot, hal, if_neg h0]
    · have hno : ∀ r, (s.core c).spot ≠ .cmpxchg r := fun r hr => hspot ⟨r, hr⟩
      refine ⟨l, ?_, h.instr hno hs⟩
      cases hx : (s.core c).spot with
      | cmpxchg r => exact absurd hx (hno r)
      | _ => simp [Smp.act, hx]
  | write c a v =>
    simp only [Smp.step, Option.ite_none_right_eq_some] at hs
    obtain ⟨⟨hspot, hheld, ha⟩, hs⟩ := hs
    obtain rfl := Option.some.inj hs
    obtain ⟨ho, hp⟩ := h.inside c (Or.inl hheld)
    have hstore := h.store (x := s.core c) (f := Function.update l.data a v) ho hp
      (fun hc => absurd hc ha) hspot fun _ _ => rfl
    rw [Smp.setCore, Function.update_eq_self] at hstore
    refine ⟨_, ?_, hstore⟩
    simp [Smp.act, Lock.step, ho]
  | flush c =>
    simp only [Smp.step, Option.map_eq_some_iff] at hs
    obtain ⟨sh, hflush, rfl⟩ := hs
    obtain ⟨ho, himp⟩ := h.flush hflush
    split_ifs at himp with hlast
    · refine ⟨_, ?_, himp⟩
      simp [Smp.act, hlast, Lock.step, ho]
    · refine ⟨l, ?_, himp⟩
      simp [Smp.act, hlast]

end Steps

section Runs
variable [DecidableEq κ]

theorem implements_run {m : Ptr → BitVec 8} (h0 : m mutex = 0)
    (hr : Run (Smp.step mutex) Free (Smp.start κ m) s) :
    ∃ l, Run (Guarded.step mutex) Free ⟨Smp.start κ m, ⟨none, m⟩⟩ ⟨s, l⟩ ∧
      Implements mutex s l := by
  induction hr with
  | refl => exact ⟨_, .refl, implements_start m h0⟩
  | tail _ _ hs ih =>
    obtain ⟨l, hrun, himp⟩ := ih
    obtain ⟨l', hstep, himp'⟩ := himp.step hs
    exact ⟨l', .tail hrun trivial hstep, himp'⟩

/-- On any number of cores, in any order of their steps and of the draining of their stores, the byte
and the routines of mutex.s are a mutex that is taken when it is free and given back by its owner
only. Who has been told that it has the mutex is its owner, and finds the data as the owners before
have left it. -/
theorem mutex_refines (mutex : Ptr) (m : Ptr → BitVec 8) (h0 : m mutex = 0)
    (hr : Run (Smp.step mutex) Free (Smp.start κ m) s) :
    ∃ l, Run (Guarded.step mutex) Free ⟨Smp.start κ m, ⟨none, m⟩⟩ ⟨s, l⟩ ∧
      (s.shared.mem mutex = 0 ↔ l.owner = none) ∧
      ∀ c, (s.core c).held = true →
        l.owner = some c ∧ ∀ a, a ≠ mutex → s.shared.read c a = l.data a := by
  obtain ⟨l, hrun, himp⟩ := implements_run h0 hr
  refine ⟨l, hrun, himp.free, fun c hc => ?_⟩
  obtain ⟨ho, -⟩ := himp.inside c (Or.inl hc)
  exact ⟨ho, himp.data c (Or.inr ho)⟩

/-- One core stores under the mutex and gives it back, then another one takes it. -/
theorem mutex_refines_two_cores : ∃ (s : Smp Bool) (l : Lock Bool),
    l.owner = some false ∧ s.shared.read false 1 = l.data 1 := by
  obtain ⟨s, hr, hs⟩ := Run.exists_of_exec (Smp.step 0) (Smp.start Bool fun _ => 0)
    [.call true .acquire, .step true, .step true, .step true, .step true, .write true 1 7,
      .call false .trylock, .release true, .step true, .flush true, .flush true, .step false,
      .step false, .step false, .step false]
    (fun s => (s.core false).held) (by decide)
  obtain ⟨l, -, -, h⟩ := mutex_refines 0 (fun _ => 0) rfl hr
  exact ⟨s, l, (h false hs).1, (h false hs).2 1 (by decide)⟩

/-- A mutex that has been given back is there for everyone: a core that calls either routine has it
after four of its own steps, unless another core comes first. -/
theorem mutex_free_taken (mutex : Ptr) (m : Ptr → BitVec 8) (h0 : m mutex = 0)
    (hr : Run (Smp.step mutex) Free (Smp.start κ m) s) (hfree : s.shared.mem mutex = 0)
    (hc : (s.core c).spot = .caller) (hheld : (s.core c).held = false) (r : MutexRoutine) :
    ∃ s', exec (Smp.step mutex) s [.call c r, .step c, .step c, .step c, .step c] = some s' ∧
      (s'.core c).held = true ∧ (r = .trylock → (s'.core c).rax = 1) := by
  obtain ⟨l, -, himp⟩ := implements_run h0 hr
  have hbuf := himp.empty (himp.free.mp hfree) c
  have hread : s.shared.read c mutex = 0 := by
    rw [Shared.read, hbuf]
    exact hfree
  cases r <;>
    simp [exec, Smp.step, Smp.instr, Smp.setCore, hc, hheld, hread, hbuf, hfree, Shared.locked,
      MutexCore.won]

/-- After the first core has given the mutex back and its stores have drained. -/
theorem mutex_free_taken_again : ∃ s s' : Smp Bool,
    exec (Smp.step 0) s [.call false .trylock, .step false, .step false, .step false, .step false] =
      some s' ∧ (s'.core false).rax = 1 := by
  obtain ⟨s, hr, hs⟩ := Run.exists_of_exec (Smp.step 0) (Smp.start Bool fun _ => 0)
    [.call true .acquire, .step true, .step true, .step true, .step true, .write true 1 7,
      .release true, .step true, .flush true, .flush true]
    (fun s => decide (s.shared.mem 0 = 0 ∧ (s.core false).spot = .caller ∧
      (s.core false).held = false)) (by decide)
  obtain ⟨hfree, hc, hheld⟩ := of_decide_eq_true hs
  obtain ⟨s', hexec, -, hrax⟩ := mutex_free_taken 0 (fun _ => 0) rfl hr hfree hc hheld .trylock
  exact ⟨s, s', hexec, hrax rfl⟩

end Runs
end Pinion64
