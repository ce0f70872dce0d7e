import Pinion64.Calls

/-! The invariant of the running system, and the elementary kernel steps that one event may
take. -/
namespace Pinion64
open Intrusive Transition

/-- The active thread runs, unless it stands between the body of an entry and its trap. -/
def Sys.Runs (P : Platform) (s : Sys) : Prop :=
  s.active ≠ P.idleTcb → (∀ e, s.pos s.active ≠ .tail e) →
    s.kernel.state s.active = tcbStateRunning

structure SysSound (P : Platform) (s : Sys) : Prop where
  sound : Sound P s.kernel
  vectors : Vectors s.kernel
  active : s.active ≠ 0
  idle : s.pos P.idleTcb = .user
  runs : s.Runs P

/-- The code in rdi that a yield trap finds. -/
def Sys.yieldCode (s : Sys) : Word :=
  match s.pos s.active with
  | .tail e => e.yieldCode
  | _ => s.cpu.rdi

/-- The kernel steps of an event, told from the state in which it happens. -/
def Sys.May (s : Sys) : Event → Effect → Prop
  | .run _ => fun _ => False
  | .call c => c.May s.kernel
  | .interrupt v _ _ => TrapMay s.kernel v s.cpu.rdi
  | .yield => TrapMay s.kernel 0x100 s.yieldCode
  | .ret => fun _ => False

variable {P : Platform} {k k' : Kernel} {s s' : Sys} {e : Event}

section Inversion

theorem Sys.step_running (hs : s.step P e = some s') : ¬ s.halted = true := by
  intro hh
  simp [Sys.step, hh] at hs

theorem Sys.run_cases {regs : Regs} (hs : s.step P (.run regs) = some s') :
    s.pos s.active = .user ∧ s' = { s with cpu := regs } := by
  simp only [Sys.step, if_neg (Sys.step_running hs)] at hs
  split_ifs at hs with hp
  exact ⟨hp, (Option.some.inj hs).symm⟩

theorem Sys.call_cases {c : Call} (hs : s.step P (.call c) = some s') :
    s.pos s.active = .user ∧ s.active ≠ P.idleTcb ∧ s' = s.call P c := by
  simp only [Sys.step, if_neg (Sys.step_running hs)] at hs
  split_ifs at hs with hp
  exact ⟨hp.1, hp.2, (Option.some.inj hs).symm⟩

/-- Only a page fault sets cr2, and only some vectors push an error code. -/
theorem Sys.interrupt_cases {v : BitVec 32} {error cr2 : Word}
    (hs : s.step P (.interrupt v error cr2) = some s') :
    Installed v ∧ ∃ x er, s' = Sys.enter P { s with cr2 := x } v er := by
  simp only [Sys.step, if_neg (Sys.step_running hs)] at hs
  split_ifs at hs with hv h14 herr herr
  · exact ⟨hv, cr2, error, (Option.some.inj hs).symm⟩
  · exact ⟨hv, cr2, 0, (Option.some.inj hs).symm⟩
  · exact ⟨hv, s.cr2, error, (Option.some.inj hs).symm⟩
  · exact ⟨hv, s.cr2, 0, (Option.some.inj hs).symm⟩

/-- A trap of user code, or the one behind the body of an entry. -/
theorem Sys.yield_cases (hs : s.step P .yield = some s') :
    s.pos s.active = .user ∧ s.active ≠ P.idleTcb ∧ s' = s.enter P 0x100 0 ∨
    ∃ e, s.pos s.active = .tail e ∧
      s' = (({ s with cpu := { s.cpu with rdi := e.yieldCode } } : Sys).setPos s.active
        (.ret e)).enter P 0x100 0 := by
  simp only [Sys.step, if_neg (Sys.step_running hs)] at hs
  cases hp : s.pos s.active with
  | user =>
    simp only [hp] at hs
    split_ifs at hs with hi
    exact Or.inl ⟨rfl, hi, (Option.some.inj hs).symm⟩
  | tail e =>
    simp only [hp] at hs
    exact Or.inr ⟨e, rfl, (Option.some.inj hs).symm⟩
  | ret e => simp [hp] at hs

theorem Sys.ret_cases (hs : s.step P .ret = some s') :
    ∃ e, s.pos s.active = .ret e ∧ s' = s.setPos s.active .user := by
  simp only [Sys.step, if_neg (Sys.step_running hs)] at hs
  cases hp : s.pos s.active with
  | ret e =>
    simp only [hp] at hs
    exact ⟨e, rfl, (Option.some.inj hs).symm⟩
  | user => simp [hp] at hs
  | tail e => simp [hp] at hs

end Inversion

section May

theorem Sys.May.reap {t : Ptr} (h : s.May e (.reap t)) :
    ∃ th, e = .call (.threadReap th) ∧ t = tcbGet s.kernel th := by
  cases e with
  | call c =>
    obtain ⟨th, rfl, ht⟩ := h
    exact ⟨th, rfl, ht⟩
  | _ => exact h.elim

theorem Sys.May.create (h : s.May e .create) : e = .call .threadCreate := by
  cases e with
  | call c => exact congrArg Event.call h
  | _ => exact h.elim

theorem Sys.May.regs {t : Ptr} {r : Regs} {iv sv : BitVec 32} {er : Word}
    (h : s.May e (.regs t r iv sv er)) : t = s.active ∨ ∃ th cls st b,
      e = .call (.threadPushState th cls st b) ∧ t = tcbGet s.kernel th ∧
        (s.kernel.tcb t).Stopped := by
  cases e with
  | call c =>
    obtain ⟨th, cls, st, b, rfl, ht⟩ := h
    exact Or.inr ⟨th, cls, st, b, rfl, ht⟩
  | interrupt v er' cr2 => exact Or.inl h
  | yield => exact Or.inl h
  | run r' => exact h.elim
  | ret => exact h.elim

end May

section Enter

theorem saveState_state (k : Kernel) (cpu : Regs) (iv : BitVec 32) (error : Word) (p : Ptr) :
    (saveState k cpu iv error).state p = k.state p :=
  k.updTcb_proj k.activeTcb p _ Tcb.state fun _ => rfl

theorem saveState_tap (k : Kernel) (cpu : Regs) (iv : BitVec 32) (error : Word) (p : Ptr) :
    ((saveState k cpu iv error).tcb p).tap = (k.tcb p).tap :=
  k.updTcb_proj k.activeTcb p _ Tcb.tap fun _ => rfl

/-- Saving the registers changes nothing that decides on the steps of the trap. -/
theorem TrapMay.before {cpu : Regs} {iv iv' : BitVec 32} {error rdi : Word} {e : Effect}
    (h : TrapMay (saveState k cpu iv error) iv' rdi e) : TrapMay k iv' rdi e := by
  have hp : (saveState k cpu iv error).vectorPageTable = k.vectorPageTable := rfl
  have hf : ∀ vec t j, Fired (saveState k cpu iv error) vec t j ↔ Fired k vec t j :=
    fun vec t j => fired_congr hp (saveState_tap k cpu iv error t) vec j
  have hst : ∀ p, (saveState k cpu iv error).state p = k.state p := saveState_state k cpu iv error
  cases e with
  | ready t =>
    obtain ⟨rfl, hr⟩ := h
    refine ⟨rfl, ?_⟩
    rw [Requeues, hst] at hr
    exact hr
  | flag v t j => exact ⟨h.1, (hf ..).mp h.2⟩
  | wake v t j => exact ⟨h.1, (hf ..).mp h.2.1, (hst t).symm.trans h.2.2⟩
  | unwait v t j => exact ⟨h.1, (hf ..).mp h.2.1, (hst t).symm.trans h.2.2⟩
  | _ => exact h

theorem enter_kernel (P : Platform) (s : Sys) (iv : BitVec 32) (error : Word) :
    (s.enter P iv error).kernel =
      (fault P (saveState s.kernel s.cpu iv error) s.kernel.activeTcb).1 := by
  have hactive : (saveState s.kernel s.cpu iv error).activeTcb = s.kernel.activeTcb := rfl
  simp only [Sys.enter, hactive]
  rcases fault P (saveState s.kernel s.cpu iv error) s.kernel.activeTcb with ⟨k', _ | _ | _⟩ <;> rfl

/-- A trap saves the active thread and handles the vector; it ends with a running thread, in the
idle loop, or where it began. -/
theorem enter_sound {iv : BitVec 32} {error : Word} (hs : Sound P s.kernel)
    (hv : Vectors s.kernel) (ha : s.active ≠ 0) (hi : s.pos P.idleTcb = .user)
    (hr : iv ≠ 0x100 → s.Runs P) :
    SysSound P (s.enter P iv error) ∧
      Effects P (TrapMay s.kernel iv s.cpu.rdi) s.kernel (s.enter P iv error).kernel := by
  have hsave : Effects P (TrapMay s.kernel iv s.cpu.rdi) s.kernel
      (saveState s.kernel s.cpu iv error) :=
    .single (e := .regs s.kernel.activeTcb s.cpu iv 0 error) trivial rfl rfl
  have hsame : (saveState s.kernel s.cpu iv error).tcb s.kernel.activeTcb =
      { s.kernel.tcb s.kernel.activeTcb with
        regs := s.cpu, ivect := iv, saved := 0, error := error } := Kernel.updTcb_self ..
  obtain ⟨heff, hend⟩ := fault_effects (hs.effects hsave) ha
  change Effects P (HandlerMay _ ((saveState s.kernel s.cpu iv error).tcb s.kernel.activeTcb).ivect
    ((saveState s.kernel s.cpu iv error).tcb s.kernel.activeTcb).regs.rdi) _
    (fault P _ s.kernel.activeTcb).1 at heff
  change TrapEnd P _ (fault P _ s.kernel.activeTcb).1
    ((saveState s.kernel s.cpu iv error).tcb s.kernel.activeTcb).ivect
    (fault P _ s.kernel.activeTcb).2 at hend
  rw [hsame] at heff hend
  have hall := hsave.trans (heff.weaken fun _ he => he.trap.before)
  have hrun : iv ≠ 0x100 → s.Runs P := hr
  refine ⟨?_, by rw [enter_kernel]; exact hall⟩
  have hs' := hs.effects hall
  have hv' := hv.effects hs hall
  have hst := saveState_state s.kernel s.cpu iv error
  have hactive : (saveState s.kernel s.cpu iv error).activeTcb = s.kernel.activeTcb := rfl
  simp only [Sys.enter, hactive]
  generalize fault P (saveState s.kernel s.cpu iv error) s.kernel.activeTcb = r at hs' hv' hend ⊢
  obtain ⟨k', f⟩ := r
  cases f with
  | resume =>
    rcases hend.resume rfl with ⟨rfl, -, h100, -⟩ | ⟨h0, h1⟩
    · exact ⟨hs', hv', ha, hi, fun h2 h3 => (hst _).trans (hr h100 h2 h3)⟩
    · exact ⟨hs', hv', h0, hi, fun _ _ => h1⟩
  | idle =>
    have hidle := hend.idle rfl
    refine ⟨hs', hv', ?_, ?_, fun h2 => absurd hidle h2⟩
    · exact hidle.trans_ne P.idle_ne
    · change Function.update s.pos k'.activeTcb .user P.idleTcb = .user
      simp only at hidle
      rw [hidle]
      exact Function.update_self ..
  | hang =>
    obtain ⟨rfl, rfl⟩ := hend.hang rfl
    exact ⟨hs', hv', ha, hi, fun h2 h3 => (hst _).trans (hr (by decide) h2 h3)⟩

end Enter

section Call

theorem call_active {c : Call} {e : Effect} (he : c.May k e) (k₁ : Kernel) :
    e.active P k₁ = k₁.activeTcb := by
  cases e with
  | dispatch t => exact he.elim
  | inject => exact he.elim
  | unload => exact he.elim
  | _ => rfl

/-- A body does not switch. -/
theorem body_active {c : Call} (h : Effects P (c.May k) k k') (hs : Sound P k) :
    k'.activeTcb = k.activeTcb :=
  h.keep (I := fun k₁ => k₁.activeTcb = k.activeTcb) rfl hs fun _ _ _ ha hs he hm hk =>
    ((Effect.spec hs he hk).active.trans (call_active hm _)).trans ha

/-- A body without a trap behind it leaves its caller running. -/
theorem body_running {c : Call} (hc : c.entry = none) (h : Effects P (c.May k) k k')
    (hk : Caller P k) : k'.state k.activeTcb = tcbStateRunning := by
  have hkeep := h.keep (I := fun k₁ => k₁.Live k.activeTcb ∧
    k₁.state k.activeTcb = tcbStateRunning) ⟨hk.live, hk.running⟩ hk.sound ?_
  · exact hkeep.2
  rintro a e b ⟨hl, hr⟩ hs he hm hb
  have hspec := Effect.spec hs he hb
  have hsame : b.tableEntry = a.tableEntry → b.Live k.activeTcb := by
    intro ht
    rw [Kernel.Live, ht]
    exact hl
  have hof : b.Live k.activeTcb → e.stateOf a k.activeTcb = a.state k.activeTcb →
      b.Live k.activeTcb ∧ b.state k.activeTcb = tcbStateRunning :=
    fun h1 h2 => ⟨h1, ((hspec.state _ (Or.inl ⟨h1, hl⟩)).trans h2).trans hr⟩
  cases e with
  | ready t =>
    obtain ⟨th, rfl, -⟩ := hm
    exact absurd hc (by simp [Call.entry])
  | dispatch t => exact hm.elim
  | inject => exact hm.elim
  | unload => exact hm.elim
  | block t =>
    obtain ⟨th, rfl, -⟩ := hm
    exact absurd hc (by simp [Call.entry])
  | shift t s =>
    rcases hm with ⟨th, rfl, -⟩ | ⟨th, rfl, -⟩ | ⟨rfl, -⟩ | ⟨rfl, -⟩ <;>
    · exact absurd hc (by simp [Call.entry])
  | wake v t j =>
    have hne : k.activeTcb ≠ t := by
      rintro rfl
      exact absurd (hk.running.symm.trans hm.2.2) (by decide)
    exact hof (hsame hspec.table) (if_neg hne)
  | unwait v t j =>
    have hne : k.activeTcb ≠ t := by
      rintro rfl
      exact absurd (hk.running.symm.trans hm.2.2) (by decide)
    exact hof (hsame hspec.table) (if_neg hne)
  | create =>
    obtain rfl := hm
    exact absurd hc (by simp [Call.entry])
  | reap t =>
    have hne : k.activeTcb ≠ t := by
      rintro rfl
      exact absurd (hr.symm.trans he.2.1) (by decide)
    exact hof ((hspec.table.live _).mpr ⟨hl, hne⟩) rfl
  | _ => exact hof (hsame hspec.table) rfl

theorem leaveEntry_kernel (s : Sys) (k : Kernel) (c : Call) (r : Reply) :
    (s.leaveEntry k c r).kernel = s.kernel := by
  unfold Sys.leaveEntry
  split
  · split_ifs <;> rfl
  · split_ifs <;> rfl
  · rfl

theorem leaveEntry_pos (s : Sys) (k : Kernel) (c : Call) (r : Reply) (p : Ptr) :
    (s.leaveEntry k c r).pos p = s.pos p ∨ (s.leaveEntry k c r).pos p = .user := by
  have hset : ∀ q, (s.setPos q .user).pos p = s.pos p ∨ (s.setPos q .user).pos p = .user := by
    intro q
    rw [Sys.setPos]
    by_cases hp : p = q
    · subst hp
      exact Or.inr (Function.update_self ..)
    · exact Or.inl (Function.update_of_ne hp ..)
  unfold Sys.leaveEntry
  split
  · split_ifs
    · exact Or.inl rfl
    · exact hset _
  · split_ifs
    · exact hset _
    · exact Or.inl rfl
  · exact Or.inl rfl

theorem SysSound.caller (h : SysSound P s) (hp : s.pos s.active = .user)
    (hi : s.active ≠ P.idleTcb) : Caller P s.kernel := by
  refine ⟨h.sound, h.vectors, ?_, h.runs hi fun e he => ?_⟩
  · obtain ⟨run, free, hc⟩ := h.sound
    exact (hc.active.resolve_left h.active).1.resolve_right hi
  · rw [hp] at he
    cases he

/-- What a call leaves behind. -/
theorem SysSound.call (h : SysSound P s) (hp : s.pos s.active = .user)
    (hi : s.active ≠ P.idleTcb) (c : Call) :
    ∃ r k', c.body P.pages s.kernel = some (r, k') ∧ Effects P (c.May s.kernel) s.kernel k' ∧
      k'.activeTcb = s.active ∧ (s.call P c).kernel = k' ∧ SysSound P (s.call P c) := by
  have hcall := h.caller hp hi
  obtain ⟨r, k', hb, he⟩ := hcall.body c
  have ha : k'.activeTcb = s.active := body_active he h.sound
  have hs' := h.sound.effects he
  have hv' := h.vectors.effects h.sound he
  simp only [Sys.call, hb]
  refine ⟨r, k', rfl, he, ha, ?_⟩
  let s₀ : Sys := { s with kernel := k', cpu := { s.cpu with rax := r.rax s.cpu.rax } }
  let s₁ : Sys := s₀.leaveEntry k' c r
  have hk₁ : s₁.kernel = k' := leaveEntry_kernel s₀ k' c r
  have ha₁ : s₁.active = s.active := (congrArg Kernel.activeTcb hk₁).trans ha
  have hidle : s₁.pos P.idleTcb = .user := by
    rcases leaveEntry_pos s₀ k' c r P.idleTcb with hx | hx
    · exact hx.trans h.idle
    · exact hx
  cases hc : c.entry with
  | some e =>
    refine ⟨hk₁, hk₁.symm ▸ hs', hk₁.symm ▸ hv', ?_, ?_, fun _ hx => ?_⟩
    · exact ha₁.symm ▸ h.active
    · exact (Function.update_of_ne (ha₁.symm ▸ hi.symm) ..).trans hidle
    · exact absurd (Function.update_self ..) (hx e)
  | none =>
    refine ⟨hk₁, hk₁.symm ▸ hs', hk₁.symm ▸ hv', ha₁.symm ▸ h.active, hidle, fun _ _ => ?_⟩
    have hrun := body_running hc he hcall
    simp only
    rw [hk₁, ha₁]
    exact hrun

end Call

/-- A call is its body, made by a running thread. -/
theorem SysSound.step_call (h : SysSound P s) {c : Call} (hs : s.step P (.call c) = some s') :
    Caller P s.kernel ∧ s' = s.call P c ∧
      ∃ r, c.body P.pages s.kernel = some (r, s'.kernel) := by
  obtain ⟨hp, hi, rfl⟩ := Sys.call_cases hs
  obtain ⟨r, k', hb, -, -, hk, -⟩ := h.call hp hi c
  exact ⟨h.caller hp hi, rfl, r, hk ▸ hb⟩

/-- Every event keeps the invariant and is a sequence of the kernel steps that it may take. -/
theorem SysSound.step (h : SysSound P s) (hs : s.step P e = some s') :
    SysSound P s' ∧ Effects P (s.May e) s.kernel s'.kernel := by
  cases e with
  | run regs =>
    obtain ⟨-, rfl⟩ := Sys.run_cases hs
    exact ⟨⟨h.sound, h.vectors, h.active, h.idle, h.runs⟩, .refl⟩
  | call c =>
    obtain ⟨hp, hi, rfl⟩ := Sys.call_cases hs
    obtain ⟨r, k', -, he, -, rfl, hsound⟩ := h.call hp hi c
    exact ⟨hsound, he⟩
  | interrupt v error cr2 =>
    obtain ⟨-, x, er, rfl⟩ := Sys.interrupt_cases hs
    exact enter_sound (s := { s with cr2 := x }) h.sound h.vectors h.active h.idle fun _ => h.runs
  | yield =>
    rcases Sys.yield_cases hs with ⟨hp, -, rfl⟩ | ⟨e, hp, rfl⟩
    · have hy : s.yieldCode = s.cpu.rdi := by
        rw [Sys.yieldCode, hp]
      rw [Sys.May, hy]
      exact enter_sound h.sound h.vectors h.active h.idle fun _ => h.runs
    · have hy : s.yieldCode = e.yieldCode := by
        rw [Sys.yieldCode, hp]
      rw [Sys.May, hy]
      refine enter_sound (s := ({ s with cpu := { s.cpu with rdi := e.yieldCode } }).setPos s.active
        (.ret e)) h.sound h.vectors h.active ?_ fun h100 => absurd rfl h100
      have hne : P.idleTcb ≠ s.active := by
        intro he
        rw [← he, h.idle] at hp
        cases hp
      exact (Function.update_of_ne hne ..).trans h.idle
  | ret =>
    obtain ⟨e, hp, rfl⟩ := Sys.ret_cases hs
    refine ⟨⟨h.sound, h.vectors, h.active, ?_, fun hi _ => h.runs hi fun e' he => ?_⟩, .refl⟩
    · by_cases hne : P.idleTcb = s.active
      · exact hne ▸ Function.update_self ..
      · exact (Function.update_of_ne hne ..).trans h.idle
    · rw [hp] at he
      cases he

theorem SysSound.run {ok : Sys → Event → Prop} (h : SysSound P s) (hr : Run (Sys.step P) ok s s') :
    SysSound P s' :=
  hr.invariant (I := SysSound P) h fun _ _ _ ha _ hs => (ha.step hs).1

end Pinion64
