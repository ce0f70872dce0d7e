import Mathlib.Data.List.Basic
import Mathlib.Logic.Function.Basic

/-! Radix tables in a flat memory: a table is a node of slots, an entry of a slot is empty, a
leaf or a reference to the table one level down. Every table in use is labelled with the path
that leads to it, so that no table is shared and a write is seen by the paths through its slot
only. Paths are kept in reverse, the last index first. -/
namespace Radix

variable {P I E : Type*}

inductive Slot (P : Type*)
  | empty
  | leaf
  | table (p : P)

/-- Walk down a path of indices; the result is the leaf entry met with the number of indices
left below it. -/
def find (view : ℕ → E → Slot P) (mem : P → I → E) : List I → P → Option (ℕ × E)
  | [], _ => none
  | i :: is, p =>
    match view is.length (mem p i) with
    | .empty => none
    | .leaf => some (is.length, mem p i)
    | .table q => find view mem is q

/-- The table at the end of a path, which is kept in reverse like the labels. -/
def tableAt (view : ℕ → E → Slot P) (depth : ℕ) (mem : P → I → E) (root : P) :
    List I → Option P
  | [] => some root
  | i :: w =>
    match tableAt view depth mem root w with
    | none => none
    | some p =>
      match view (depth - (w.length + 1)) (mem p i) with
      | .table q => some q
      | _ => none

section Update
variable [DecidableEq P] [DecidableEq I]

/-- Overwrite one slot. -/
def write (mem : P → I → E) (p : P) (i : I) (e : E) : P → I → E :=
  Function.update mem p (Function.update (mem p) i e)

@[simp] theorem write_self (mem : P → I → E) (p : P) (i : I) (e : E) :
    write mem p i e p i = e := by simp [write]

theorem write_of_ne {mem : P → I → E} {p q : P} {i j : I} {e : E} (h : q ≠ p ∨ j ≠ i) :
    write mem p i e q j = mem q j := by
  by_cases hq : q = p
  · subst hq
    have hj : j ≠ i := h.resolve_left (fun hn => hn rfl)
    simp [write, hj]
  · simp [write, hq]

/-- Hang the table `q` with the contents `c` below the slot `i` of `p`. -/
def link (mem : P → I → E) (p : P) (i : I) (e : E) (q : P) (c : I → E) : P → I → E :=
  Function.update (write mem p i e) q c

theorem link_of_ne {mem : P → I → E} {p q r : P} {i : I} {e : E} {c : I → E} (h : r ≠ q) :
    link mem p i e q c r = write mem p i e r := by simp [link, h]

@[simp] theorem link_self (mem : P → I → E) (p q : P) (i : I) (e : E) (c : I → E) :
    link mem p i e q c q = c := by simp [link]

end Update

/-- The labelling of the tables of a tree of the given depth: the labelled tables are exactly
those met from the root, each by the one path of its label. -/
structure Forest (view : ℕ → E → Slot P) (depth : ℕ) (mem : P → I → E) (root : P)
    (own : P → Option (List I)) : Prop where
  root : ∀ p, own p = some [] ↔ p = root
  bound : ∀ p w, own p = some w → w.length < depth
  child : ∀ p w i q, own p = some w → view (depth - (w.length + 1)) (mem p i) = .table q →
    own q = some (i :: w)
  parent : ∀ q w i, own q = some (i :: w) →
    ∃ p, own p = some w ∧ view (depth - (w.length + 1)) (mem p i) = .table q

namespace Forest

variable {view : ℕ → E → Slot P} {depth : ℕ} {mem mem' : P → I → E} {root : P}
  {own : P → Option (List I)}

theorem own_root (h : Forest view depth mem root own) : own root = some [] :=
  (h.root root).mpr rfl

/-- The path of its label leads from the root to a table. -/
theorem find_label (h : Forest view depth mem root own) {q : P} {w : List I}
    (hq : own q = some w) {is : List I} (hlen : w.length + is.length = depth) :
    find view mem (w.reverse ++ is) root = find view mem is q := by
  induction w generalizing q is with
  | nil =>
    obtain rfl := (h.root q).mp hq
    rfl
  | cons i w ih =>
    obtain ⟨p, hp, ht⟩ := h.parent q w i hq
    have hd : depth - (w.length + 1) = is.length := by simp at hlen; omega
    rw [hd] at ht
    have hf : find view mem (w.reverse ++ (i :: is)) root = find view mem (i :: is) p :=
      ih hp (by simp at hlen ⊢; omega)
    rw [List.reverse_cons, List.append_assoc, List.singleton_append, hf]
    simp [find, ht]

/-- Two tables never carry the same label. -/
theorem label_injective (h : Forest view depth mem root own) {p q : P} {w : List I}
    (hp : own p = some w) (hq : own q = some w) : p = q := by
  induction w generalizing p q with
  | nil => rw [(h.root p).mp hp, (h.root q).mp hq]
  | cons i w ih =>
    obtain ⟨p', hp', hv⟩ := h.parent p w i hp
    obtain ⟨q', hq', hv'⟩ := h.parent q w i hq
    obtain rfl := ih hp' hq'
    rw [hv] at hv'
    exact Slot.table.inj hv'

/-- The labels tell where the paths lead. -/
theorem tableAt_iff (h : Forest view depth mem root own) {q : P} {w : List I} :
    tableAt view depth mem root w = some q ↔ own q = some w := by
  induction w generalizing q with
  | nil => rw [h.root, tableAt, Option.some.injEq, eq_comm]
  | cons i w ih =>
    rw [tableAt]
    constructor
    · intro ht
      split at ht
      · cases ht
      · rename_i p hp
        split at ht <;> cases ht
        rename_i hv
        exact h.child p w i q (ih.mp hp) hv
    · intro hq
      obtain ⟨p, hp, hv⟩ := h.parent q w i hq
      simp only [ih.mpr hp, hv]

/-- A walk reads only the slots along its path. -/
theorem find_congr (h : Forest view depth mem root own) {is : List I} {p : P} {w : List I}
    (hp : own p = some w) (hlen : w.length + is.length = depth)
    (hm : ∀ q v i, own q = some v → (i :: v) <:+ (is.reverse ++ w) → mem' q i = mem q i) :
    find view mem' is p = find view mem is p := by
  induction is generalizing p w with
  | nil => rfl
  | cons i is ih =>
    have hi : mem' p i = mem p i := hm p w i hp ⟨is.reverse, by simp⟩
    have hd : depth - (w.length + 1) = is.length := by simp at hlen; omega
    simp only [find, hi]
    split
    · rfl
    · rfl
    · rename_i q hq
      rw [← hd] at hq
      apply ih (h.child p w i q hp hq) (by simp at hlen ⊢; omega)
      intro r v j hr hs
      exact hm r v j hr (by simpa using hs)

variable [DecidableEq P] [DecidableEq I]

/-- Writing a slot leaves every walk alone that does not pass through it. -/
theorem find_write (h : Forest view depth mem root own) {is : List I} {p : P} {w : List I}
    (hp : own p = some w) {q : P} {v : List I} {i : I} {e : E} (hq : own q = some v)
    (hlen : w.length + is.length = depth) (hoff : ¬ (i :: v) <:+ (is.reverse ++ w)) :
    find view (write mem q i e) is p = find view mem is p := by
  apply h.find_congr hp hlen
  intro r u j hr hs
  apply write_of_ne
  by_contra hcon
  simp only [not_or, not_not] at hcon
  obtain ⟨rfl, rfl⟩ := hcon
  rw [hq] at hr
  obtain rfl := Option.some.inj hr
  exact hoff hs

/-- Overwriting a slot by an entry that refers to no table keeps the labelling. -/
theorem write_leaf (h : Forest view depth mem root own) {q : P} {v : List I} {i : I} {e : E}
    (hq : own q = some v) (hold : ∀ r, view (depth - (v.length + 1)) (mem q i) ≠ .table r)
    (he : ∀ r, view (depth - (v.length + 1)) e ≠ .table r) :
    Forest view depth (write mem q i e) root own where
  root := h.root
  bound := h.bound
  child p w j r hp ht := by
    by_cases hs : p = q ∧ j = i
    · obtain ⟨rfl, rfl⟩ := hs
      rw [hq] at hp
      obtain rfl := Option.some.inj hp
      rw [write_self] at ht
      exact absurd ht (he r)
    · rw [write_of_ne (not_and_or.mp hs)] at ht
      exact h.child p w j r hp ht
  parent r w j hr := by
    obtain ⟨p, hp, ht⟩ := h.parent r w j hr
    refine ⟨p, hp, ?_⟩
    rw [write_of_ne]
    · exact ht
    · by_contra hcon
      simp only [not_or, not_not] at hcon
      obtain ⟨rfl, rfl⟩ := hcon
      rw [hp] at hq
      obtain rfl := Option.some.inj hq
      exact hold r ht

theorem link_forest (h : Forest view depth mem root own) {p : P} {w : List I} {i : I}
    {e : E} {q : P} {c : I → E} (hp : own p = some w) (hw : w.length + 1 < depth)
    (hq : own q = none) (hempty : view (depth - (w.length + 1)) (mem p i) = .empty)
    (he : view (depth - (w.length + 1)) e = .table q) (hc : ∀ n j t, view n (c j) ≠ .table t) :
    Forest view depth (link mem p i e q c) root (Function.update own q (some (i :: w))) where
  root r := by
    by_cases hrq : r = q
    · subst hrq
      rw [Function.update_self]
      refine ⟨fun hn => absurd (Option.some.inj hn) (by simp), ?_⟩
      rintro rfl
      rw [h.own_root] at hq
      contradiction
    · rw [Function.update_of_ne hrq]
      exact h.root r
  bound r v hr := by
    by_cases hrq : r = q
    · subst hrq
      rw [Function.update_self] at hr
      obtain rfl := Option.some.inj hr
      simpa using hw
    · rw [Function.update_of_ne hrq] at hr
      exact h.bound r v hr
  child r v j t hr ht := by
    by_cases hrq : r = q
    · subst hrq
      rw [link_self] at ht
      exact absurd ht (hc _ _ _)
    · rw [Function.update_of_ne hrq] at hr
      rw [link_of_ne hrq] at ht
      by_cases hs : r = p ∧ j = i
      · obtain ⟨rfl, rfl⟩ := hs
        rw [hp] at hr
        obtain rfl := Option.some.inj hr
        rw [write_self, he] at ht
        obtain rfl := Slot.table.inj ht
        exact Function.update_self ..
      · rw [write_of_ne (not_and_or.mp hs)] at ht
        have ho := h.child r v j t hr ht
        rw [Function.update_of_ne]
        · exact ho
        · rintro rfl
          rw [ho] at hq
          contradiction
  parent r v j hr := by
    by_cases hrq : r = q
    · subst hrq
      rw [Function.update_self] at hr
      obtain ⟨rfl, rfl⟩ := List.cons.inj (Option.some.inj hr)
      have hpq : p ≠ r := by
        rintro rfl
        rw [hp] at hq
        contradiction
      exact ⟨p, by rwa [Function.update_of_ne hpq], by rwa [link_of_ne hpq, write_self]⟩
    · rw [Function.update_of_ne hrq] at hr
      obtain ⟨t, ht, hv⟩ := h.parent r v j hr
      have htq : t ≠ q := by
        rintro rfl
        rw [ht] at hq
        contradiction
      refine ⟨t, by rwa [Function.update_of_ne htq], ?_⟩
      rw [link_of_ne htq, write_of_ne]
      · exact hv
      · by_contra hcon
        simp only [not_or, not_not] at hcon
        obtain ⟨rfl, rfl⟩ := hcon
        rw [hp] at ht
        obtain rfl := Option.some.inj ht
        rw [hempty] at hv
        contradiction

/-- A cleared table below a formerly empty slot is invisible to every walk. -/
theorem find_link (h : Forest view depth mem root own) {p : P} {w : List I} {i : I}
    {e : E} {q : P} {c : I → E} (hp : own p = some w)
    (hq : own q = none) (he : view (depth - (w.length + 1)) e = .table q)
    (hempty : view (depth - (w.length + 1)) (mem p i) = .empty)
    (hc : ∀ n j, view n (c j) = .empty)
    {is : List I} {r : P} {v : List I} (hr : own r = some v)
    (hlen : v.length + is.length = depth) :
    find view (link mem p i e q c) is r = find view mem is r := by
  induction is generalizing r v with
  | nil => rfl
  | cons j is ih =>
    have hrq : r ≠ q := by
      rintro rfl
      rw [hr] at hq
      contradiction
    have hd : depth - (v.length + 1) = is.length := by simp at hlen; omega
    simp only [find, link_of_ne hrq]
    by_cases hs : r = p ∧ j = i
    · obtain ⟨rfl, rfl⟩ := hs
      rw [hp] at hr
      obtain rfl := Option.some.inj hr
      rw [write_self, ← hd, he, hempty, hd]
      cases is with
      | nil => rfl
      | cons k is => simp [find, hc]
    · rw [write_of_ne (not_and_or.mp hs)]
      split
      · rfl
      · rfl
      · rename_i t ht
        rw [← hd] at ht
        exact ih (h.child r v j t hr ht) (by simp at hlen ⊢; omega)

end Forest
end Radix
