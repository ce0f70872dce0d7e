import Pinion64.Scheduler
import Pinion64.Lib.Chain
import Mathlib.Data.Fintype.Card
import Mathlib.Data.Fintype.EquivFin

/-! The functions of scheduler.c and queues.c as operations on an intrusive list: of the blocks
they change the `next` fields only. -/
namespace Pinion64
open Intrusive

namespace Kernel

/-- Another list structure over the same blocks. -/
def relink (k : Kernel) (next : Ptr → Ptr) (head tail : Ptr) : Kernel :=
  { k with
    tcb := fun p => { k.tcb p with next := next p }
    scheduleHead := head
    scheduleTail := tail }

variable (k : Kernel) (n : Ptr → Ptr) (h t p q : Ptr) (s : BitVec 16)

@[simp] theorem relink_next : (k.relink n h t).next = n := rfl
@[simp] theorem relink_link : (k.relink n h t).link = k.link := rfl
@[simp] theorem relink_state : ((k.relink n h t).tcb p).state = (k.tcb p).state := rfl
@[simp] theorem relink_id : ((k.relink n h t).tcb p).id = (k.tcb p).id := rfl
@[simp] theorem relink_tap : ((k.relink n h t).tcb p).tap = (k.tcb p).tap := rfl
@[simp] theorem relink_scheduleHead : (k.relink n h t).scheduleHead = h := rfl
@[simp] theorem relink_scheduleTail : (k.relink n h t).scheduleTail = t := rfl
@[simp] theorem relink_queueHead : (k.relink n h t).queueHead = k.queueHead := rfl
@[simp] theorem relink_tcbTable : (k.relink n h t).tcbTable = k.tcbTable := rfl
@[simp] theorem relink_tcbList : (k.relink n h t).tcbList = k.tcbList := rfl
@[simp] theorem relink_activeTcb : (k.relink n h t).activeTcb = k.activeTcb := rfl
@[simp] theorem relink_paging : (k.relink n h t).paging = k.paging := rfl
@[simp] theorem relink_vectorPageTable :
    (k.relink n h t).vectorPageTable = k.vectorPageTable := rfl

@[simp] theorem relink_relink (n' : Ptr → Ptr) (h' t' : Ptr) :
    (k.relink n h t).relink n' h' t' = k.relink n' h' t' := rfl

theorem relink_tcb {n : Ptr → Ptr} {p : Ptr} (hd tl : Ptr) (h : n p = k.next p) :
    (k.relink n hd tl).tcb p = k.tcb p := by
  unfold relink
  simp only
  rw [h]
  rfl

theorem setNext_eq :
    k.setNext p q = k.relink (Function.update k.next p q) k.scheduleHead k.scheduleTail := by
  have ht : (k.setNext p q).tcb =
      fun x => { k.tcb x with next := Function.update k.next p q x } := by
    funext x
    rw [setNext, updTcb_tcb]
    by_cases hx : x = p
    · subst hx
      simp
    · simp [hx, next]
  exact congrArg (fun b => { k with tcb := b }) ht

@[simp] theorem setNext_next : (k.setNext p q).next = Function.update k.next p q := by
  rw [setNext_eq, relink_next]

end Kernel

/-- Push is the append of the list. -/
theorem schedulerPushTcb_eq (k : Kernel) (tcb : Ptr) :
    schedulerPushTcb k tcb = k.relink
      (if k.scheduleTail ≠ 0 then
        Function.update (Function.update k.next tcb 0) k.scheduleTail tcb
      else Function.update k.next tcb 0)
      (if k.scheduleTail ≠ 0 then k.scheduleHead else tcb) tcb := by
  by_cases ht : k.scheduleTail = 0
  · simp only [schedulerPushTcb, Kernel.setNext_eq, Kernel.relink_scheduleTail, ht, ne_eq,
      not_true_eq_false, if_false]
    rfl
  · simp only [schedulerPushTcb, Kernel.setNext_eq, Kernel.relink_scheduleTail,
      Kernel.relink_scheduleHead, Kernel.relink_next, ht, ne_eq, not_false_eq_true, if_true]
    rfl

theorem schedulerPullTcb_relink (k : Kernel) :
    schedulerPullTcb k = (k.scheduleHead, k.relink k.next
      (if k.scheduleHead ≠ 0 then k.next k.scheduleHead else k.scheduleHead)
      (if k.scheduleTail = k.scheduleHead then 0 else k.scheduleTail)) := by
  simp only [schedulerPullTcb]
  split_ifs <;> rfl

theorem schedulerPullTcb_eq {k : Kernel} {l : List Ptr} {t : Ptr}
    (h : Fifo k.next 0 k.scheduleHead k.scheduleTail (t :: l)) :
    schedulerPullTcb k =
      (t, k.relink k.next (k.next t) (if k.scheduleTail = t then 0 else k.scheduleTail)) := by
  obtain ⟨rfl, hx, -⟩ := h.pull
  simp only [schedulerPullTcb, ne_eq, hx, not_false_eq_true, if_true]
  split_ifs <;> rfl

theorem schedulerPullTcb_nil {k : Kernel}
    (h : Fifo k.next 0 k.scheduleHead k.scheduleTail []) : schedulerPullTcb k = (0, k) := by
  have hh := h.eq_nil_iff.mp rfl
  have ht : k.scheduleTail = 0 := h.2
  simp only [schedulerPullTcb, if_neg (not_not.mpr hh), if_pos (ht.trans hh.symm)]
  exact Prod.ext hh (congrArg (fun x => { k with scheduleTail := x }) ht.symm)

/-- The search stops at the predecessor. -/
theorem schedulerRemFrom_eq {k : Kernel} {l₁ l₂ : List Ptr} {t p x : Ptr} {n : ℕ}
    (h : Chain k.next 0 t (l₁ ++ p :: x :: l₂)) (hn : l₁.length < n) :
    schedulerRemFrom x n t k = some (0, k.relink (Function.update k.next p (k.next x))
      k.scheduleHead (if k.scheduleTail = x then p else k.scheduleTail)) := by
  induction l₁ generalizing t n with
  | nil =>
    obtain ⟨n, rfl⟩ : ∃ m, n = m + 1 := ⟨n - 1, by simp at hn; omega⟩
    obtain ⟨rfl, ht, h⟩ := Chain.cons_iff.mp h
    obtain ⟨hx, -, -⟩ := Chain.cons_iff.mp h
    simp only [schedulerRemFrom, ht, hx, if_true, if_false, Kernel.setNext_eq,
      Kernel.relink_scheduleTail]
    split_ifs <;> rfl
  | cons y l₁ ih =>
    obtain ⟨n, rfl⟩ : ∃ m, n = m + 1 := ⟨n - 1, by simp at hn; omega⟩
    have hnd := h.nodup
    obtain ⟨rfl, ht, h⟩ := Chain.cons_iff.mp h
    have hne : k.next t ≠ x := by
      intro he
      -- the node behind `t` would be met twice
      cases l₁ with
      | nil =>
        obtain ⟨hp, -, -⟩ := Chain.cons_iff.mp h
        rw [he] at hp
        subst hp
        simp at hnd
      | cons z l₁ =>
        obtain ⟨hz, -, -⟩ := Chain.cons_iff.mp h
        rw [he] at hz
        subst hz
        simp at hnd
    simp only [schedulerRemFrom, ht, hne, if_false]
    exact ih h (by simpa using hn)

theorem length_le_of_nodup {l : List Ptr} (h : l.Nodup) : l.length ≤ 2 ^ 64 := by
  have hf : (l.map BitVec.toFin).Nodup :=
    h.map fun a b hab => BitVec.eq_of_toFin_eq hab
  have hc := hf.length_le_card
  rwa [List.length_map, Fintype.card_fin] at hc

/-- Removal of a queued block takes it out of the list and leaves the order of the others. -/
theorem schedulerRemTcb_eq {k : Kernel} {l : List Ptr} {x : Ptr}
    (h : Fifo k.next 0 k.scheduleHead k.scheduleTail l) (hx : x ∈ l) :
    ∃ n hd tl, schedulerRemTcb k x = some (0, k.relink n hd tl) ∧ Fifo n 0 hd tl (l.erase x) ∧
      (hd = k.scheduleHead ∨ hd = k.next x) ∧
      ∀ p, n p = k.next p ∨ p ∈ l ∧ n p = k.next x := by
  by_cases hh : k.scheduleHead = x
  · obtain ⟨m, rfl⟩ : ∃ m, l = x :: m := by
      cases l with
      | nil => simp at hx
      | cons y m => exact ⟨m, by rw [← hh, ← (h.pull).1]⟩
    obtain ⟨-, -, hq⟩ := h.pull
    refine ⟨k.next, k.next x, if k.scheduleTail = x then 0 else k.scheduleTail, ?_, ?_,
      Or.inr rfl, fun _ => Or.inl rfl⟩
    · simp only [schedulerRemTcb, hh, if_true]
      split_ifs <;> rfl
    · rwa [List.erase_cons_head]
  · obtain ⟨l₁, p, l₂, rfl⟩ : ∃ l₁ p l₂, l = l₁ ++ p :: x :: l₂ := by
      obtain ⟨a, b, rfl⟩ := List.append_of_mem hx
      cases a using List.reverseRecOn with
      | nil => exact absurd (h.pull).1.symm hh
      | append_singleton a p => exact ⟨a, p, b, by simp⟩
    have hnd := h.1.nodup
    have herase : (l₁ ++ p :: x :: l₂).erase x = l₁ ++ p :: l₂ := by
      have hn1 : x ∉ l₁ := fun hm => (List.nodup_append.mp hnd).2.2 x hm x (by simp) rfl
      have hn2 : x ≠ p := by
        have := (List.nodup_append.mp hnd).2.1
        rintro rfl
        simp at this
      rw [List.erase_append_right _ hn1, List.erase_cons_tail (by simpa using hn2.symm),
        List.erase_cons_head]
    refine ⟨_, _, _, ?_, herase ▸ h.unlink, Or.inl rfl, fun y => ?_⟩
    · rw [schedulerRemTcb, if_neg hh]
      apply schedulerRemFrom_eq h.1
      have := length_le_of_nodup hnd
      simp only [List.length_append, List.length_cons] at this
      omega
    · by_cases hy : y = p
      · subst hy
        exact Or.inr ⟨by simp, Function.update_self ..⟩
      · exact Or.inl (Function.update_of_ne hy ..)

theorem enqueue_eq (k : Kernel) (q : TcbQueue) (tcb : Ptr) :
    enqueue k q tcb =
      { k.relink (Function.update k.next tcb (k.queueHead q)) k.scheduleHead k.scheduleTail with
        queueHead := Function.update k.queueHead q tcb } := by
  rw [enqueue, Kernel.setNext_eq]
  rfl

end Pinion64
