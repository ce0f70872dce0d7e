import Pinion64.Reach

/-! The run queue of scheduler.c, from the empty queue on: whatever blocks are pushed, pulled and
removed, it is the list that the calls build. -/
namespace Pinion64
open Intrusive

/-- The calls on the run queue. -/
inductive QueueCall
  | push (t : Ptr)
  | pull
  | rem (t : Ptr)
  deriving DecidableEq

/-- What they answer. -/
inductive QueueAnswer
  | none
  | tcb (t : Ptr)
  | code (n : ℕ)
  deriving DecidableEq

namespace QueueCall

/-- There is no answer if the search of scheduler_rem_tcb never ends. -/
def run (k : Kernel) : QueueCall → Option (QueueAnswer × Kernel)
  | push t => some (.none, schedulerPushTcb k t)
  | pull => some (.tcb (schedulerPullTcb k).1, (schedulerPullTcb k).2)
  | rem t => (schedulerRemTcb k t).map fun r => (.code r.1, r.2)

/-- The same call on a list of blocks. -/
def spec (l : List Ptr) : QueueCall → QueueAnswer × List Ptr
  | push t => (.none, l ++ [t])
  | pull => (.tcb (l.headD 0), l.tail)
  | rem t => (.code (if t ∈ l then 0 else 1), l.erase t)

/-- A block is pushed while it is not in the queue; there is no block at NULL. -/
def Fits (l : List Ptr) : QueueCall → Prop
  | push t => t ≠ 0 ∧ t ∉ l
  | pull => True
  | rem t => t ≠ 0

instance (l : List Ptr) : ∀ c : QueueCall, Decidable (c.Fits l)
  | push _ => instDecidableAnd
  | pull => instDecidableTrue
  | rem _ => instDecidableNot

def runAll : List QueueCall → Kernel → Option (List QueueAnswer × Kernel)
  | [], k => some ([], k)
  | c :: cs, k => (c.run k).bind fun r => (runAll cs r.2).map fun rs => (r.1 :: rs.1, rs.2)

def specAll : List QueueCall → List Ptr → List QueueAnswer × List Ptr
  | [], l => ([], l)
  | c :: cs, l =>
    let rs := specAll cs (c.spec l).2
    ((c.spec l).1 :: rs.1, rs.2)

def FitAll : List QueueCall → List Ptr → Prop
  | [], _ => True
  | c :: cs, l => c.Fits l ∧ FitAll cs (c.spec l).2

instance decFitAll : ∀ (cs : List QueueCall) (l : List Ptr), Decidable (FitAll cs l)
  | [], _ => instDecidableTrue
  | c :: cs, l => haveI := decFitAll cs (c.spec l).2; inferInstanceAs (Decidable (_ ∧ _))

end QueueCall

/-- The run queue holds the blocks of the list, in this order. -/
def Kernel.Queues (k : Kernel) (l : List Ptr) : Prop :=
  Fifo k.next 0 k.scheduleHead k.scheduleTail l

variable {k : Kernel} {l : List Ptr} {t x : Ptr}

section Calls

theorem Kernel.Queues.push (h : k.Queues l) (h0 : t ≠ 0) (ht : t ∉ l) :
    (schedulerPushTcb k t).Queues (l ++ [t]) := by
  rw [schedulerPushTcb_eq]
  exact Fifo.push h h0 ht

theorem Kernel.Queues.pull (h : k.Queues l) :
    (schedulerPullTcb k).1 = l.headD 0 ∧ (schedulerPullTcb k).2.Queues l.tail := by
  cases l with
  | nil =>
    rw [schedulerPullTcb_nil h]
    exact ⟨rfl, h⟩
  | cons x l =>
    rw [schedulerPullTcb_eq h]
    exact ⟨rfl, (Fifo.pull h).2.2⟩

/-- The search for a block that is not in the queue runs to the end of the list. -/
theorem schedulerRemFrom_other {n : ℕ} (h : Chain k.next 0 t l) (hx : x ∉ l) (h0 : x ≠ 0)
    (hn : l.length < n) : schedulerRemFrom x n t k = some (1, k) := by
  induction l generalizing t n with
  | nil =>
    obtain ⟨n, rfl⟩ : ∃ m, n = m + 1 := ⟨n - 1, by simp only [List.length_nil] at hn; omega⟩
    exact if_pos (Chain.nil_iff.mp h)
  | cons y l ih =>
    obtain ⟨n, rfl⟩ : ∃ m, n = m + 1 := ⟨n - 1, by omega⟩
    obtain ⟨rfl, ht, h⟩ := Chain.cons_iff.mp h
    rw [List.mem_cons, not_or] at hx
    -- the block behind `t` is the next one of the list, or NULL
    have hne : k.next t ≠ x := by
      intro he
      cases l with
      | nil => exact h0 (he.symm.trans (Chain.nil_iff.mp h))
      | cons z l =>
        obtain ⟨hz, -, -⟩ := Chain.cons_iff.mp h
        exact hx.2 (by rw [← he, hz]; exact List.mem_cons_self ..)
    rw [schedulerRemFrom, if_neg ht, if_neg hne]
    exact ih h hx.2 (by simpa using hn)

theorem schedulerRemTcb_other (h : k.Queues l) (hx : x ∉ l) (h0 : x ≠ 0) :
    schedulerRemTcb k x = some (1, k) := by
  have hh : k.scheduleHead ≠ x := by
    rintro rfl
    obtain ⟨m, rfl, -⟩ := h.1.exists_cons h0
    exact hx (List.mem_cons_self ..)
  rw [schedulerRemTcb, if_neg hh]
  refine schedulerRemFrom_other h.1 hx h0 ?_
  have hnd : (x :: l).Nodup := List.nodup_cons.mpr ⟨hx, h.1.nodup⟩
  have hle := length_le_of_nodup hnd
  rw [List.length_cons] at hle
  omega

theorem Kernel.Queues.rem (h : k.Queues l) (h0 : x ≠ 0) :
    ∃ k', schedulerRemTcb k x = some (if x ∈ l then 0 else 1, k') ∧ k'.Queues (l.erase x) := by
  by_cases hx : x ∈ l
  · obtain ⟨n, hd, tl, hrem, hf, -, -⟩ := schedulerRemTcb_eq h hx
    rw [if_pos hx]
    exact ⟨_, hrem, hf⟩
  · rw [if_neg hx, List.erase_of_not_mem hx]
    exact ⟨k, schedulerRemTcb_other h hx h0, h⟩

/-- One call on the queue is the same call on the list. -/
theorem Kernel.Queues.step (h : k.Queues l) (c : QueueCall) (hc : c.Fits l) :
    ∃ k', c.run k = some ((c.spec l).1, k') ∧ k'.Queues (c.spec l).2 := by
  cases c with
  | push t => exact ⟨_, rfl, h.push hc.1 hc.2⟩
  | pull =>
    obtain ⟨hp, hq⟩ := h.pull
    refine ⟨_, ?_, hq⟩
    rw [QueueCall.run, hp]
    rfl
  | rem t =>
    obtain ⟨k', hr, hq⟩ := h.rem hc
    refine ⟨k', ?_, hq⟩
    rw [QueueCall.run, hr]
    rfl

theorem Kernel.Queues.steps (h : k.Queues l) (cs : List QueueCall) (hc : QueueCall.FitAll cs l) :
    ∃ k', QueueCall.runAll cs k = some ((QueueCall.specAll cs l).1, k') ∧
      k'.Queues (QueueCall.specAll cs l).2 := by
  induction cs generalizing k l with
  | nil => exact ⟨k, rfl, h⟩
  | cons c cs ih =>
    obtain ⟨k₁, hk₁, h₁⟩ := h.step c hc.1
    obtain ⟨k₂, hk₂, h₂⟩ := ih h₁ hc.2
    refine ⟨k₂, ?_, h₂⟩
    rw [QueueCall.runAll, hk₁, Option.bind_some, hk₂]
    rfl

end Calls

/-- The head leads through the blocks of the list to NULL, and the tail is the last of them. -/
structure Kernel.ShowsQueue (k : Kernel) (l : List Ptr) : Prop where
  chain : Chain k.next 0 k.scheduleHead l
  tail : ∀ h : l ≠ [], k.scheduleTail = l.getLast h
  empty : k.scheduleTail = 0 ↔ l = []
  /-- A block that is not in the queue is not found, and nothing changes. -/
  other : ∀ t ≠ 0, t ∉ l → schedulerRemTcb k t = some (1, k)

/-- Every sequence of calls on the empty run queue ends, answers what it answers on the empty
list and leaves a queue of what it leaves in the list. -/
theorem run_queue_refines_list (k : Kernel) (hh : k.scheduleHead = 0) (ht : k.scheduleTail = 0)
    (cs : List QueueCall) (hc : QueueCall.FitAll cs []) :
    ∃ k', QueueCall.runAll cs k = some ((QueueCall.specAll cs []).1, k') ∧
      k'.ShowsQueue (QueueCall.specAll cs []).2 := by
  have h0 : k.Queues [] := by
    rw [Kernel.Queues, hh, ht]
    exact Fifo.empty
  obtain ⟨k', hrun, h⟩ := h0.steps cs hc
  exact ⟨k', hrun, h.1, h.tail_eq_getLast, h.tail_eq_null_iff,
    fun t ht0 hnot => schedulerRemTcb_other h hnot ht0⟩

/-- The middle, the last and the only block are removed, one of them twice. -/
theorem run_queue_refines_list_removals : ∃ k', QueueCall.runAll [.push 0x1000, .push 0x2000,
    .push 0x3000, .rem 0x2000, .rem 0x2000, .rem 0x3000, .push 0x2000, .pull, .rem 0x2000, .pull]
      lowBoot.start = some ([.none, .none, .none, .code 0, .code 1, .code 0, .none, .tcb 0x1000,
        .code 0, .tcb 0], k') ∧ k'.ShowsQueue [] :=
  run_queue_refines_list lowBoot.start rfl rfl _ (by decide)

end Pinion64
