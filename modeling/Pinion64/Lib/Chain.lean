import Mathlib.Data.List.Basic
import Mathlib.Data.List.Nodup
import Mathlib.Logic.Function.Basic

/-! Intrusive singly linked lists: a successor function on nodes, a distinguished end
marker, and the list of nodes met on the way from a head to the marker. -/
namespace Intrusive

variable {α : Type*}

/-- Following `next` from `a` meets exactly the nodes of the list and arrives at the last
argument. -/
def Seg (next : α → α) : α → List α → α → Prop
  | a, [], b => a = b
  | a, x :: l, b => a = x ∧ Seg next (next x) l b

/-- A segment that arrives at the end marker and meets it nowhere before. -/
def Chain (next : α → α) (null a : α) (l : List α) : Prop :=
  Seg next a l null ∧ null ∉ l

/-- The node `t` is met when following `next` from `a`, whether or not the chain ends. -/
inductive Meets (next : α → α) (null : α) : α → α → Prop
  | here {a} (h : a ≠ null) : Meets next null a a
  | step {a t} (h : a ≠ null) (tail : Meets next null (next a) t) : Meets next null a t

namespace Seg

variable {next next' : α → α}

@[simp] theorem nil_iff {a b : α} : Seg next a [] b ↔ a = b := Iff.rfl

@[simp] theorem cons_iff {a b x : α} {l : List α} :
    Seg next a (x :: l) b ↔ a = x ∧ Seg next (next x) l b := Iff.rfl

theorem append_iff {a c : α} {l m : List α} :
    Seg next a (l ++ m) c ↔ ∃ b, Seg next a l b ∧ Seg next b m c := by
  induction l generalizing a with
  | nil => simp
  | cons x l ih => simp [ih, and_assoc]

theorem congr {a b : α} {l : List α} (hn : ∀ x ∈ l, next' x = next x)
    (h : Seg next a l b) : Seg next' a l b := by
  induction l generalizing a with
  | nil => exact h
  | cons x l ih =>
    obtain ⟨rfl, h⟩ := h
    refine ⟨rfl, ?_⟩
    rw [hn a (by simp)]
    exact ih (fun y hy => hn y (by simp [hy])) h

end Seg

namespace Chain

variable {next next' : α → α} {null a : α} {l : List α}

@[simp] theorem nil_iff : Chain next null a [] ↔ a = null := by simp [Chain]

theorem cons_iff {x : α} :
    Chain next null a (x :: l) ↔ a = x ∧ x ≠ null ∧ Chain next null (next x) l := by
  simp only [Chain, Seg.cons_iff, List.mem_cons, not_or]
  constructor
  · rintro ⟨⟨rfl, h⟩, hx, hl⟩
    exact ⟨rfl, fun he => hx he.symm, h, hl⟩
  · rintro ⟨rfl, hx, h, hl⟩
    exact ⟨⟨rfl, h⟩, fun he => hx he.symm, hl⟩

theorem congr (hn : ∀ x ∈ l, next' x = next x) (h : Chain next null a l) :
    Chain next' null a l := ⟨h.1.congr hn, h.2⟩

theorem eq_nil (h : Chain next null null l) : l = [] := by
  cases l with
  | nil => rfl
  | cons x l =>
    obtain ⟨rfl, hx, _⟩ := cons_iff.mp h
    exact absurd rfl hx

theorem exists_cons (h : Chain next null a l) (ha : a ≠ null) :
    ∃ m, l = a :: m ∧ Chain next null (next a) m := by
  cases l with
  | nil => exact absurd (nil_iff.mp h) ha
  | cons x m =>
    obtain ⟨rfl, _, h⟩ := cons_iff.mp h
    exact ⟨m, rfl, h⟩

/-- A head determines its chain. -/
theorem unique {m : List α} (h : Chain next null a l) (h' : Chain next null a m) : l = m := by
  induction l generalizing a m with
  | nil =>
    obtain rfl := nil_iff.mp h
    exact h'.eq_nil.symm
  | cons x l ih =>
    obtain ⟨rfl, hx, h⟩ := cons_iff.mp h
    obtain ⟨m, rfl, h2⟩ := h'.exists_cons hx
    rw [ih h h2]

theorem suffix {m : List α} (h : Chain next null a (l ++ m)) :
    ∃ b, Chain next null b m := by
  obtain ⟨b, _, h2⟩ := Seg.append_iff.mp h.1
  exact ⟨b, h2, fun hm => h.2 (by simp [hm])⟩

/-- A chain that reaches the end marker repeats no node: a repeated node would start two
chains of different lengths. -/
theorem nodup (h : Chain next null a l) : l.Nodup := by
  induction l generalizing a with
  | nil => simp
  | cons x l ih =>
    obtain ⟨rfl, hx, hl⟩ := cons_iff.mp h
    refine List.nodup_cons.mpr ⟨fun hm => ?_, ih hl⟩
    obtain ⟨l₁, l₂, rfl⟩ := List.append_of_mem hm
    obtain ⟨b, hb⟩ := hl.suffix
    obtain ⟨rfl, _, hb⟩ := cons_iff.mp hb
    have he := congrArg List.length (hb.unique hl)
    simp at he
    omega

theorem mem_of_meets {t : α} (h : Chain next null a l) (ht : Meets next null a t) :
    t ∈ l := by
  induction ht generalizing l with
  | here ha =>
    obtain ⟨m, rfl, _⟩ := h.exists_cons ha
    simp
  | step ha _ ih =>
    obtain ⟨m, rfl, h2⟩ := h.exists_cons ha
    exact List.mem_cons_of_mem _ (ih h2)

theorem meets_of_mem {t : α} (h : Chain next null a l) (ht : t ∈ l) :
    Meets next null a t := by
  induction l generalizing a with
  | nil => simp at ht
  | cons x l ih =>
    obtain ⟨rfl, hx, h⟩ := cons_iff.mp h
    rcases List.mem_cons.mp ht with rfl | ht
    · exact .here hx
    · exact .step hx (ih h ht)

theorem mem_iff_meets {t : α} (h : Chain next null a l) : t ∈ l ↔ Meets next null a t :=
  ⟨h.meets_of_mem, h.mem_of_meets⟩

variable [DecidableEq α]

/-- Pushing at the front: point the new node at the old head. -/
theorem cons_update {x : α} (h : Chain next null a l) (hx : x ≠ null) (hl : x ∉ l) :
    Chain (Function.update next x a) null x (x :: l) := by
  refine cons_iff.mpr ⟨rfl, hx, ?_⟩
  rw [Function.update_self]
  exact h.congr fun y hy => Function.update_of_ne (ne_of_mem_of_not_mem hy hl) a next

/-- Appending at the end: cut the new node off, then point the last node at it. -/
theorem snoc_update {x : α} (h : Chain next null a l) (hne : l ≠ []) (hx : x ≠ null)
    (hl : x ∉ l) :
    Chain (Function.update (Function.update next x null) (l.getLast hne) x) null a
      (l ++ [x]) := by
  obtain ⟨m, y, rfl⟩ : ∃ m y, l = m ++ [y] :=
    ⟨l.dropLast, l.getLast hne, (List.dropLast_append_getLast hne).symm⟩
  have hy : y ∉ m := by
    have := List.nodup_append.mp h.nodup
    exact fun hm => this.2.2 y hm y (by simp) rfl
  simp only [List.mem_append, List.mem_singleton, not_or] at hl
  obtain ⟨b, h1, h2⟩ := Seg.append_iff.mp h.1
  obtain ⟨rfl, -⟩ := h2
  simp only [List.getLast_append_singleton]
  refine ⟨?_, by simpa using ⟨fun hm => h.2 (by simp [hm]), fun he => h.2 (by simp [he]), hx.symm⟩⟩
  rw [List.append_assoc]
  refine Seg.append_iff.mpr ⟨b, h1.congr fun z hz => ?_, rfl, ?_⟩
  · rw [Function.update_of_ne (ne_of_mem_of_not_mem hz hy),
      Function.update_of_ne (ne_of_mem_of_not_mem hz hl.1)]
  · rw [Function.update_self]
    refine ⟨rfl, ?_⟩
    rw [Function.update_of_ne hl.2, Function.update_self]
    rfl

/-- Unlinking the successor of `p`: point `p` past it. -/
theorem unlink_update {p x : α} {l₁ l₂ : List α}
    (h : Chain next null a (l₁ ++ p :: x :: l₂)) :
    Chain (Function.update next p (next x)) null a (l₁ ++ p :: l₂) := by
  have hnd := h.nodup
  obtain ⟨b, h1, h2⟩ := Seg.append_iff.mp h.1
  obtain ⟨rfl, hp, h3⟩ := h2
  have hb1 : b ∉ l₁ := fun hm => (List.nodup_append.mp hnd).2.2 b hm b (by simp) rfl
  have hb2 : b ∉ l₂ := by
    have := (List.nodup_append.mp hnd).2.1
    simp only [List.nodup_cons, List.mem_cons, not_or] at this
    exact this.1.2
  refine ⟨Seg.append_iff.mpr ⟨b, h1.congr fun z hz => ?_, rfl, ?_⟩, fun hm => h.2 ?_⟩
  · exact Function.update_of_ne (ne_of_mem_of_not_mem hz hb1) _ _
  · rw [Function.update_self]
    exact h3.congr fun z hz => Function.update_of_ne (ne_of_mem_of_not_mem hz hb2) _ _
  · simp only [List.mem_append, List.mem_cons] at hm ⊢
    tauto

end Chain

/-- A list with a pointer to its last node, the end marker when it is empty. -/
def Fifo (next : α → α) (null head tail : α) (l : List α) : Prop :=
  Chain next null head l ∧ tail = l.getLastD null

namespace Fifo

variable {next next' : α → α} {null head tail : α} {l : List α}

theorem congr (hn : ∀ x ∈ l, next' x = next x) (h : Fifo next null head tail l) :
    Fifo next' null head tail l := ⟨h.1.congr hn, h.2⟩

theorem empty : Fifo next null null null [] := ⟨Chain.nil_iff.mpr rfl, rfl⟩

theorem eq_nil_iff (h : Fifo next null head tail l) : l = [] ↔ head = null := by
  constructor
  · rintro rfl
    exact Chain.nil_iff.mp h.1
  · rintro rfl
    exact h.1.eq_nil

theorem tail_eq_getLast (h : Fifo next null head tail l) (hl : l ≠ []) :
    tail = l.getLast hl := by
  rw [h.2, List.getLastD_eq_getLast?, List.getLast?_eq_getLast_of_ne_nil hl]
  rfl

theorem tail_mem (h : Fifo next null head tail l) (hl : l ≠ []) : tail ∈ l := by
  rw [h.tail_eq_getLast hl]
  exact List.getLast_mem hl

/-- The last node leads to the end marker. -/
theorem next_tail (h : Fifo next null head tail l) (hl : l ≠ []) : next tail = null := by
  have hc := h.1
  rw [← List.dropLast_append_getLast hl, ← h.tail_eq_getLast hl] at hc
  obtain ⟨c, hc⟩ := hc.suffix
  obtain ⟨-, -, hc⟩ := Chain.cons_iff.mp hc
  exact Chain.nil_iff.mp hc

theorem tail_eq_null_iff (h : Fifo next null head tail l) : tail = null ↔ l = [] := by
  constructor
  · intro ht
    by_contra hl
    exact h.1.2 (ht ▸ h.tail_mem hl)
  · rintro rfl
    exact h.2

theorem getLastD_append (l₁ : List α) (y : α) (m : List α) :
    (l₁ ++ y :: m).getLastD null = (y :: m).getLastD null := by
  simp [List.getLastD_eq_getLast?, List.getLast?_append, List.getLast?_cons]

theorem getLastD_mem (y : α) (m : List α) : (y :: m).getLastD null ∈ y :: m := by
  rw [List.getLastD_eq_getLast?, List.getLast?_eq_getLast_of_ne_nil (by simp)]
  exact List.getLast_mem (by simp)

variable [DecidableEq α]

/-- The new node is cut off and becomes the last one. -/
theorem push {x : α} (h : Fifo next null head tail l) (hx : x ≠ null) (hl : x ∉ l) :
    Fifo (if tail ≠ null then Function.update (Function.update next x null) tail x
        else Function.update next x null)
      null (if tail ≠ null then head else x) x (l ++ [x]) := by
  refine ⟨?_, by simp⟩
  by_cases ht : tail = null
  · obtain rfl := h.tail_eq_null_iff.mp ht
    rw [if_neg (not_not.mpr ht), if_neg (not_not.mpr ht), List.nil_append, Chain.cons_iff,
      Function.update_self]
    exact ⟨rfl, hx, Chain.nil_iff.mpr rfl⟩
  · have hne : l ≠ [] := fun he => ht (h.tail_eq_null_iff.mpr he)
    rw [if_pos ht, if_pos ht, h.tail_eq_getLast hne]
    exact h.1.snoc_update hne hx hl

/-- The first node leaves. -/
theorem pull {x : α} (h : Fifo next null head tail (x :: l)) :
    x = head ∧ x ≠ null ∧ Fifo next null (next x) (if tail = x then null else tail) l := by
  obtain ⟨rfl, hx, hc⟩ := Chain.cons_iff.mp h.1
  refine ⟨rfl, hx, hc, ?_⟩
  cases l with
  | nil => exact if_pos h.2
  | cons y m =>
    have hd := (List.nodup_cons.mp h.1.nodup).1
    have ht : tail = (y :: m).getLastD null := h.2.trans (getLastD_append [_] y m)
    have hne : tail ≠ head := by
      rintro rfl
      exact hd (ht ▸ getLastD_mem y m)
    rw [if_neg hne]
    exact ht

/-- The node behind `p` leaves. -/
theorem unlink {p x : α} {l₁ l₂ : List α}
    (h : Fifo next null head tail (l₁ ++ p :: x :: l₂)) :
    Fifo (Function.update next p (next x)) null head (if tail = x then p else tail)
      (l₁ ++ p :: l₂) := by
  refine ⟨h.1.unlink_update, ?_⟩
  have htail : tail = (p :: x :: l₂).getLastD null := h.2.trans (getLastD_append l₁ p _)
  rw [getLastD_append]
  cases l₂ with
  | nil => exact if_pos htail
  | cons y m =>
    have ht : tail = (y :: m).getLastD null := htail.trans (getLastD_append [p, x] y m)
    have hd : x ∉ y :: m := by
      have := (List.nodup_append.mp h.1.nodup).2.1
      exact (List.nodup_cons.mp (List.nodup_cons.mp this).2).1
    have hne : tail ≠ x := by
      rintro rfl
      exact hd (ht ▸ getLastD_mem y m)
    rw [if_neg hne, ht]
    exact (getLastD_append [p] y m).symm

end Fifo

namespace Meets

variable {next next' : α → α} {null a t : α}

theorem not_null (h : Meets next null null t) : False := by
  cases h with
  | here h => exact h rfl
  | step h _ => exact h rfl

/-- A set that holds the head and is closed under the successor holds every node met. -/
theorem of_closed {S : α → Prop} (ha : a ≠ null → S a)
    (hS : ∀ x, S x → next x ≠ null → S (next x)) (h : Meets next null a t) : S t := by
  induction h with
  | here h => exact ha h
  | step h _ ih => exact ih (hS _ (ha h))

theorem trans {b : α} (h : Meets next null a b) (h' : Meets next null (next b) t) :
    Meets next null a t := by
  induction h with
  | here h => exact .step h h'
  | step h _ ih => exact .step h (ih h')

end Meets
end Intrusive
