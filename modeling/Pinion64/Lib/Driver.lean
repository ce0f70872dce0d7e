import Pinion64.Lib.Run

/-! A program of operations on a device that also takes steps of its own, and the rules that carry
conditions on the device through every interleaving of the two. -/
namespace Driver

open Transition

/-- What an operation of the processor does, none while the device makes it wait, and what the
device does by itself. -/
structure Device (δ ο ε : Type*) where
  op : ο → δ → Option δ
  own : δ → ε → Option δ

/-- The operations still to come, and the device. -/
structure Running (δ ο : Type*) where
  todo : List ο
  device : δ

variable {δ ο ε : Type*} {D : Device δ ο ε} {P P' Q Q' M : δ → Prop} {o : ο} {os os' : List ο}
  {d d' : δ} {s : Running δ ο}

namespace Device

/-- A step of the processor (none) or of the device. -/
def step (D : Device δ ο ε) (s : Running δ ο) : Option ε → Option (Running δ ο)
  | none => match s.todo with
    | [] => none
    | o :: os => (D.op o s.device).map (Running.mk os)
  | some e => (D.own s.device e).map (Running.mk s.todo)

/-- The device alone keeps the condition. -/
def Stable (D : Device δ ο ε) (P : δ → Prop) : Prop :=
  ∀ d e d', P d → D.own d e = some d' → P d'

/-- The operation leads from the one condition to the other. -/
def Does (D : Device δ ο ε) (P : δ → Prop) (o : ο) (Q : δ → Prop) : Prop :=
  ∀ d d', P d → D.op o d = some d' → Q d'

/-- So does the program, however the device runs beside it. -/
def Triple (D : Device δ ο ε) (P : δ → Prop) (os : List ο) (Q : δ → Prop) : Prop :=
  ∀ d d', P d → Run D.step Free ⟨os, d⟩ ⟨[], d'⟩ → Q d'

/-- The device lets the operation through sooner or later. -/
def Ready (D : Device δ ο ε) (o : ο) : Prop :=
  ∀ d, ∃ d₁ d₂, Run D.own Free d d₁ ∧ D.op o d₁ = some d₂

/-- Either the processor executes the first operation, or the device takes a step of its own. -/
theorem step_cases {s' : Running δ ο} {e : Option ε} (h : D.step s e = some s') :
    (∃ o os, s.todo = o :: os ∧ ∃ d, D.op o s.device = some d ∧ s' = ⟨os, d⟩) ∨
      ∃ e d, D.own s.device e = some d ∧ s' = ⟨s.todo, d⟩ := by
  obtain ⟨os, d⟩ := s
  cases e with
  | none =>
    cases os with
    | nil => cases h
    | cons o os =>
      obtain ⟨d', hd, rfl⟩ := Option.map_eq_some_iff.mp h
      exact Or.inl ⟨o, os, rfl, d', hd, rfl⟩
  | some e =>
    obtain ⟨d', hd, rfl⟩ := Option.map_eq_some_iff.mp h
    exact Or.inr ⟨e, d', hd, rfl⟩

theorem Stable.run (hs : D.Stable P) (hr : Run D.own Free d d') (h : P d) : P d' :=
  hr.invariant h fun _ _ _ hu _ hst => hs _ _ _ hu hst

/-- The device runs while the program waits. -/
theorem alone (os : List ο) (hr : Run D.own Free d d') : Run D.step Free ⟨os, d⟩ ⟨os, d'⟩ := by
  induction hr with
  | refl => exact .refl
  | @tail t u e _ _ hst ih => exact ih.tail (e := some e) trivial (by rw [step, hst]; rfl)

theorem go (h : Run D.own Free d d') {d₁ : δ} (ho : D.op o d' = some d₁) :
    Run D.step Free ⟨o :: os, d⟩ ⟨os, d₁⟩ := by
  refine (alone (o :: os) h).tail (e := none) trivial ?_
  change (D.op o d').map (Running.mk os) = _
  rw [ho]
  rfl

/-- After the program only the device runs. -/
theorem split_nil (hr : Run D.step Free ⟨[], d⟩ s) : s.todo = [] ∧ Run D.own Free d s.device := by
  refine hr.invariant (I := fun u => u.todo = [] ∧ Run D.own Free d u.device) ⟨rfl, .refl⟩
    fun u e u' hu _ hst => ?_
  rcases step_cases hst with ⟨o, os, ho, -⟩ | ⟨e, d₁, hd, rfl⟩
  · cases hu.1.symm.trans ho
  · exact ⟨hu.1, hu.2.tail trivial hd⟩

/-- The first operation is still to come, or it came after some steps of the device. -/
theorem split_cons (hr : Run D.step Free ⟨o :: os, d⟩ s) :
    (∃ d₁, s = ⟨o :: os, d₁⟩ ∧ Run D.own Free d d₁) ∨
      ∃ d₁ d₂, Run D.own Free d d₁ ∧ D.op o d₁ = some d₂ ∧ Run D.step Free ⟨os, d₂⟩ s := by
  induction hr with
  | refl => exact Or.inl ⟨d, rfl, .refl⟩
  | @tail t u e _ _ hst ih =>
    rcases ih with ⟨d₁, rfl, h₁⟩ | ⟨d₁, d₂, h₁, ho, h₂⟩
    · rcases step_cases hst with ⟨o, os, he, d₂, ho, rfl⟩ | ⟨e, d₂, hd, rfl⟩
      · obtain ⟨rfl, rfl⟩ := List.cons.inj he
        exact Or.inr ⟨d₁, d₂, h₁, ho, .refl⟩
      · exact Or.inl ⟨d₂, rfl, h₁.tail trivial hd⟩
    · exact Or.inr ⟨d₁, d₂, h₁, ho, h₂.tail trivial hst⟩

/-- A run of two programs in a row is a run of the first and then one of the second. -/
theorem split_append (hr : Run D.step Free ⟨os ++ os', d⟩ ⟨[], d'⟩) :
    ∃ d₁, Run D.step Free ⟨os, d⟩ ⟨[], d₁⟩ ∧ Run D.step Free ⟨os', d₁⟩ ⟨[], d'⟩ := by
  induction os generalizing d with
  | nil => exact ⟨d, .refl, hr⟩
  | cons o os ih =>
    rcases split_cons hr with ⟨d₁, he, -⟩ | ⟨d₁, d₂, h₁, ho, h₂⟩
    · cases congrArg Running.todo he
    · obtain ⟨d₃, h₃, h₄⟩ := ih h₂
      exact ⟨d₃, (go h₁ ho).trans h₃, h₄⟩

namespace Triple

theorem nil (hs : D.Stable P) : D.Triple P [] P := fun _ _ h hr => hs.run (split_nil hr).2 h

theorem cons (hs : D.Stable P) (ho : D.Does P o M) (h : D.Triple M os Q) :
    D.Triple P (o :: os) Q := fun d d' hp hr => by
  rcases split_cons hr with ⟨d₁, he, -⟩ | ⟨d₁, d₂, h₁, hop, h₂⟩
  · cases congrArg Running.todo he
  · exact h d₂ d' (ho d₁ d₂ (hs.run h₁ hp) hop) h₂

theorem append (h : D.Triple P os M) (h' : D.Triple M os' Q) : D.Triple P (os ++ os') Q :=
  fun d d' hp hr => by
    obtain ⟨d₁, h₁, h₂⟩ := split_append hr
    exact h' d₁ d' (h d d₁ hp h₁) h₂

theorem imp (h : D.Triple P os Q) (hp : ∀ d, P' d → P d) (hq : ∀ d, Q d → Q' d) :
    D.Triple P' os Q' := fun d d' hd hr => hq d' (h d d' (hp d hd) hr)

end Triple

/-- A program of operations that the device lets through can always be brought to its end. -/
theorem completes (h : ∀ o ∈ os, D.Ready o) (hr : Run D.step Free ⟨os, d⟩ s) :
    ∃ d', Run D.step Free s ⟨[], d'⟩ := by
  have hleft : ∀ o ∈ s.todo, D.Ready o := by
    refine hr.invariant (I := fun u => ∀ o ∈ u.todo, D.Ready o) h fun u e u' hu _ hst => ?_
    rcases step_cases hst with ⟨o, os, he, d₂, -, rfl⟩ | ⟨e, d₂, -, rfl⟩
    · exact fun o' ho => hu o' (he ▸ List.mem_cons_of_mem _ ho)
    · exact hu
  obtain ⟨os, d⟩ := s
  clear hr h
  induction os generalizing d with
  | nil => exact ⟨d, .refl⟩
  | cons o os ih =>
    obtain ⟨d₁, d₂, h₁, ho⟩ := hleft o List.mem_cons_self d
    obtain ⟨d', h₂⟩ := ih d₂ fun o ho => hleft o (List.mem_cons_of_mem _ ho)
    exact ⟨d', (go h₁ ho).trans h₂⟩

end Device
end Driver
