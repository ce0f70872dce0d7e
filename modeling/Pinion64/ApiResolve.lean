import Pinion64.Relocate
import Pinion64.ConfigRead

/-! The names that api_resolve takes for names of the API: those that agree with one of them as far
as the shorter string goes. -/
namespace Pinion64

open Bytes

theorem differs_eq (a b : List Byte) : differs a b = decide (¬ Comparable a b) := by
  induction a generalizing b with
  | nil => simp [differs, Comparable]
  | cons c cs ih =>
    cases b with
    | nil => simp [differs, Comparable]
    | cons d ds =>
      unfold differs
      by_cases hcd : c = d
      · rw [if_neg (not_not.mpr hcd), ih, hcd]
        simp only [comparable_cons]
      · rw [if_pos hcd]
        have hno : ¬ Comparable (c :: cs) (d :: ds) := by
          rintro (⟨t, ht⟩ | ⟨t, ht⟩)
          · exact hcd (List.cons.inj ht).1
          · exact hcd (List.cons.inj ht).1.symm
        rw [decide_eq_true hno]

namespace ApiFunction

/-- The function with exactly this symbol. -/
def named (bs : List Byte) : Option ApiFunction := all.find? fun f => decide (f.symbol = bs)

/-- The symbol is one of the API, or agrees with none of them as far as the shorter string goes. -/
def Unambiguous (bs : List Byte) : Prop := ∀ f : ApiFunction, Comparable bs f.symbol → bs = f.symbol

theorem comparable_symbol {f g : ApiFunction} : Comparable f.symbol g.symbol ↔ g = f := by
  have h := differs_symbol f g
  rw [differs_eq, decide_eq_decide, not_iff_not] at h
  exact h

theorem symbol_inj {f g : ApiFunction} (h : f.symbol = g.symbol) : f = g :=
  (comparable_symbol.mp (h ▸ Or.inl List.prefix_rfl)).symm

theorem named_symbol (f : ApiFunction) : named f.symbol = some f := by
  cases h : named f.symbol with
  | none =>
    have hf := List.find?_eq_none.mp h f f.mem_all
    exact absurd (decide_eq_true rfl) hf
  | some g =>
    have hg := List.find?_some h
    exact congrArg some (symbol_inj (of_decide_eq_true hg))

theorem named_eq_none {bs : List Byte} (h : ∀ f : ApiFunction, bs ≠ f.symbol) : named bs = none :=
  List.find?_eq_none.mpr fun f _ hf => h f (of_decide_eq_true hf).symm

end ApiFunction

open ApiFunction

section
variable (p : Pmm) (apientry : ApiFunction → Word)

/-- What api_resolve should answer: the address of the function with exactly this symbol, or 0. -/
def exactAddress (bs : List Byte) : Word := (named bs).elim 0 (apiAddress p apientry)

variable {p apientry} {m : Memory 64} {a : Ptr} {bs : List Byte}

/-- The first function whose symbol agrees with the string is taken. -/
theorem apiResolve_eq (h : Spells m a bs) (hz : 0 ∉ bs) : apiResolve p apientry m a =
    (all.find? fun f => decide (Comparable bs f.symbol)).elim 0 (apiAddress p apientry) := by
  have hfun : (fun f : ApiFunction => !strcmp m a f.symbol) =
      fun f => decide (Comparable bs f.symbol) := by
    funext f
    rw [strcmp_spells h hz, differs_eq, decide_not, Bool.not_not]
  unfold apiResolve
  rw [hfun]
  cases all.find? fun f => decide (Comparable bs f.symbol) with
  | none => rfl
  | some f => rfl

theorem apiResolve_exact_iff (hne : ∀ f, apiAddress p apientry f ≠ 0) (h : Spells m a bs)
    (hz : 0 ∉ bs) : apiResolve p apientry m a = exactAddress p apientry bs ↔ Unambiguous bs := by
  by_cases hapi : ∃ f : ApiFunction, bs = f.symbol
  · obtain ⟨f, rfl⟩ := hapi
    have hun : Unambiguous f.symbol := fun g hg => by rw [comparable_symbol.mp hg]
    rw [apiResolve_spells p apientry h, exactAddress, named_symbol]
    exact iff_of_true rfl hun
  · have hno : ∀ f : ApiFunction, bs ≠ f.symbol := fun f hf => hapi ⟨f, hf⟩
    rw [apiResolve_eq h hz, exactAddress, named_eq_none hno]
    cases hf : all.find? fun f => decide (Comparable bs f.symbol) with
    | none =>
      have hnone := List.find?_eq_none.mp hf
      exact iff_of_true rfl fun g hg => absurd (decide_eq_true hg) (hnone g g.mem_all)
    | some f =>
      have hfs : Comparable bs f.symbol := by simpa using List.find?_some hf
      refine iff_of_false (hne f) fun hun => ?_
      exact hno f (hun f hfs)

/-- The name of the symbol that the relocation at `r` is for. -/
def importName (d : Dynamic) (m : Memory 64) (r : Ptr) : Ptr :=
  d.str + (Sym.read m (d.sym + d.syment * (Rela.read m r).rSym.setWidth 64)).stName.setWidth 64

/-- The word that a JUMP_SLOT relocation leaves. -/
theorem relocate_jumpSlot (kernelBase : Ptr) (d : Dynamic) {r : Ptr}
    (hr : (Rela.read m r).rType = 7) :
    read64 (relocate p apientry kernelBase d r m) (kernelBase + (Rela.read m r).rOffset) =
      apiResolve p apientry m (importName d m r) + (Rela.read m r).rAddend := by
  simp only [relocate, if_pos hr]
  exact read64_write64 ..

end

/-- A symbol is resolved to the function of exactly that name, and to 0 if there is none, if and
only if it is the name of a function or agrees with none of them as far as the shorter string
goes; a JUMP_SLOT relocation binds what its symbol is resolved to. -/
theorem api_resolve_exact (p : Pmm) (apientry : ApiFunction → Word)
    (hne : ∀ f, apiAddress p apientry f ≠ 0) (m : Memory 64) (bs : List Byte) (hz : 0 ∉ bs) :
    (∀ a, Spells m a bs →
      (apiResolve p apientry m a = exactAddress p apientry bs ↔ Unambiguous bs)) ∧
    ∀ kernelBase d r, (Rela.read m r).rType = 7 → Spells m (importName d m r) bs →
      (read64 (relocate p apientry kernelBase d r m) (kernelBase + (Rela.read m r).rOffset) =
          exactAddress p apientry bs + (Rela.read m r).rAddend ↔ Unambiguous bs) := by
  refine ⟨fun a h => apiResolve_exact_iff hne h hz, fun kernelBase d r hr h => ?_⟩
  rw [relocate_jumpSlot kernelBase d hr, add_left_inj]
  exact apiResolve_exact_iff hne h hz

/-- An image in which all entries lie at the same place. -/
theorem sampleAddress_ne_zero (f : ApiFunction) :
    apiAddress ⟨base, 0, 0⟩ (fun _ => 0x4000) f ≠ 0 := by
  have h : base + 0x200000 + 0x4000 ≠ 0 := by decide
  exact h

/-- A memory that holds a string at 0 and NUL everywhere behind it. -/
def stringMemory (bs : List Byte) : Memory 64 := fun x => bs.getD x.toNat 0

/-- page_set is resolved to page_set. -/
theorem api_resolve_exact_page_set : Spells (stringMemory ApiFunction.pageSet.symbol) 0
    ApiFunction.pageSet.symbol ∧
    apiResolve ⟨base, 0, 0⟩ (fun _ => 0x4000) (stringMemory ApiFunction.pageSet.symbol) 0 =
      exactAddress ⟨base, 0, 0⟩ (fun _ => 0x4000) ApiFunction.pageSet.symbol :=
  have hs : Spells (stringMemory ApiFunction.pageSet.symbol) 0 ApiFunction.pageSet.symbol := by
    decide +kernel
  ⟨hs, ((api_resolve_exact ⟨base, 0, 0⟩ (fun _ => 0x4000) sampleAddress_ne_zero
    (stringMemory ApiFunction.pageSet.symbol) ApiFunction.pageSet.symbol
    (zero_notMem_symbol .pageSet)).1 0 hs).mpr fun _ hg => by rw [comparable_symbol.mp hg]⟩

/-- The empty symbol is resolved to thread_yield. -/
theorem api_resolve_empty : ¬ ∀ (p : Pmm) (apientry : ApiFunction → Word),
    (∀ f, apiAddress p apientry f ≠ 0) → ∀ (m : Memory 64) (a : Ptr) (bs : List Byte), 0 ∉ bs →
      Spells m a bs → apiResolve p apientry m a = exactAddress p apientry bs := by
  intro h
  have he := h ⟨base, 0, 0⟩ (fun _ => 0x4000) sampleAddress_ne_zero (fun _ => 0) 0 []
    List.not_mem_nil rfl
  exact absurd he (by decide +kernel)

end Pinion64
