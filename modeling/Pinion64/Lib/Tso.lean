import Mathlib.Data.List.Basic
import Mathlib.Logic.Function.Basic

/-! A memory that several cores share through store buffers. A core reads its own pending stores
first; the others see a store once it has drained, in the order in which it was issued. -/
namespace Tso

variable {κ α β : Type*}

section Drain
variable [DecidableEq α] {m m' : α → β} {l l' : List (α × β)} {a x : α} {v : β}

/-- The memory after the stores of a buffer. -/
def drain (m : α → β) : List (α × β) → α → β
  | [] => m
  | s :: l => drain (Function.update m s.1 s.2) l

theorem drain_append : drain m (l ++ l') = drain (drain m l) l' := by
  induction l generalizing m with
  | nil => rfl
  | cons s l ih => exact ih

/-- Only the location itself matters. -/
theorem drain_congr (h : m' x = m x) : drain m' l x = drain m l x := by
  induction l generalizing m m' with
  | nil => exact h
  | cons s l ih =>
    apply ih
    by_cases hx : x = s.1
    · rw [hx, Function.update_self, Function.update_self]
    · rw [Function.update_of_ne hx, Function.update_of_ne hx, h]

end Drain

structure Shared (κ α β : Type*) where
  mem : α → β
  buf : κ → List (α × β)

namespace Shared

variable {s s' : Shared κ α β} {c d : κ} {a x : α} {v w : β} {f : β → β}

/-- A store of the core to the location is pending. -/
def Pending (s : Shared κ α β) (c : κ) (a : α) : Prop := a ∈ (s.buf c).map Prod.fst

section Locked
variable [DecidableEq α]

/-- What a core finds at a location. -/
def read (s : Shared κ α β) (c : κ) (a : α) : β := drain s.mem (s.buf c) a

/-- A locked instruction waits until the buffer of its core is empty, and replaces a value by a
function of it. -/
def locked (s : Shared κ α β) (c : κ) (a : α) (f : β → β) : Option (Shared κ α β) :=
  if (s.buf c).isEmpty then some { s with mem := Function.update s.mem a (f (s.mem a)) } else none

theorem locked_cases (h : s.locked c a f = some s') : s.buf c = [] ∧
    s' = { s with mem := Function.update s.mem a (f (s.mem a)) } := by
  unfold locked at h
  split_ifs at h with hbuf
  exact ⟨List.isEmpty_iff.mp hbuf, (Option.some.inj h).symm⟩

theorem locked_read_of_ne (h : s.locked c a f = some s') (hx : x ≠ a) : s'.read d x = s.read d x := by
  obtain ⟨-, rfl⟩ := locked_cases h
  exact drain_congr (Function.update_of_ne hx ..)

end Locked

section Store
variable [DecidableEq κ]

/-- A store goes to the end of the buffer. -/
def store (s : Shared κ α β) (c : κ) (a : α) (v : β) : Shared κ α β :=
  { s with buf := Function.update s.buf c (s.buf c ++ [(a, v)]) }

@[simp] theorem store_mem : (s.store c a v).mem = s.mem := rfl

@[simp] theorem store_buf_self : (s.store c a v).buf c = s.buf c ++ [(a, v)] :=
  Function.update_self ..

theorem store_buf_of_ne (h : d ≠ c) : (s.store c a v).buf d = s.buf d := Function.update_of_ne h ..

variable [DecidableEq α]

theorem store_read_self : (s.store c a v).read c = Function.update (s.read c) a v := by
  funext x
  rw [read, store_buf_self, drain_append]
  rfl

end Store

section Flush
variable [DecidableEq κ] [DecidableEq α]

/-- The oldest store of a core reaches the memory. -/
def flush (s : Shared κ α β) (c : κ) : Option (Shared κ α β) :=
  match s.buf c with
  | [] => none
  | (a, v) :: l => some ⟨Function.update s.mem a v, Function.update s.buf c l⟩

theorem flush_cases (h : s.flush c = some s') : ∃ a v l, s.buf c = (a, v) :: l ∧
    s' = ⟨Function.update s.mem a v, Function.update s.buf c l⟩ := by
  unfold flush at h
  split at h
  · cases h
  · rename_i a v l hbuf
    exact ⟨a, v, l, hbuf, (Option.some.inj h).symm⟩

/-- A core does not see its own stores drain. -/
theorem flush_read_self (h : s.flush c = some s') : s'.read c = s.read c := by
  obtain ⟨a, v, l, hbuf, rfl⟩ := flush_cases h
  funext x
  simp only [read, hbuf, Function.update_self]
  rfl

end Flush
end Shared
end Tso
