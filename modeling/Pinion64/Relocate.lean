import Mathlib.Tactic.FinCases
import Pinion64.Elf

/-! Relocation of the kernel image: `relocate` and `fixup_kernel` of load.c over api_resolve.c.
The relocations of DT_JMPREL are all applied; DT_RELA is collected and never walked. -/
namespace Pinion64

open Bytes

/-- What api_resolve knows, in the order in which it is tried. -/
inductive ApiFunction
  | threadYield | threadCreate | threadPause | threadResume | threadPullState | threadPushState
  | threadExit | threadReap
  | interruptSetTap | interruptGetTap | interruptReset | interruptWait
  | faultGetPagefault | faultGetMiscfault | faultGetZombie
  | pageSet | pageGet
  | memoryMapRead
  deriving DecidableEq

namespace ApiFunction

def all : List ApiFunction :=
  [threadYield, threadCreate, threadPause, threadResume, threadPullState, threadPushState,
    threadExit, threadReap, interruptSetTap, interruptGetTap, interruptReset, interruptWait,
    faultGetPagefault, faultGetMiscfault, faultGetZombie, pageSet, pageGet, memoryMapRead]

def name : ApiFunction → String
  | threadYield => "thread_yield"
  | threadCreate => "thread_create"
  | threadPause => "thread_pause"
  | threadResume => "thread_resume"
  | threadPullState => "thread_pull_state"
  | threadPushState => "thread_push_state"
  | threadExit => "thread_exit"
  | threadReap => "thread_reap"
  | interruptSetTap => "interrupt_set_tap"
  | interruptGetTap => "interrupt_get_tap"
  | interruptReset => "interrupt_reset"
  | interruptWait => "interrupt_wait"
  | faultGetPagefault => "fault_get_pagefault"
  | faultGetMiscfault => "fault_get_miscfault"
  | faultGetZombie => "fault_get_zombie"
  | pageSet => "page_set"
  | pageGet => "page_get"
  | memoryMapRead => "memory_map_read"

/-- The bytes of the symbol, without the final NUL. -/
def symbol (f : ApiFunction) : List (BitVec 8) :=
  ("__PINION_" ++ f.name).toList.map fun c => BitVec.ofNat 8 c.toNat

theorem mem_all (f : ApiFunction) : f ∈ all := by
  cases f <;> decide

end ApiFunction

/-- Whether strcmp reports a difference between the string at `a` and a literal. It stops at
the end of the shorter one. -/
def strcmp (m : Memory 64) : Ptr → List (BitVec 8) → Bool
  | _, [] => false
  | a, b :: bs => if m a = 0 then false else if m a ≠ b then true else strcmp m (a + 1) bs

def pmmGetPinionLoadAddr (p : Pmm) : Word := p.pmmBase + 0x200000

/-- `struct dynamic` -/
structure Dynamic where
  str : Ptr := 0
  sym : Ptr := 0
  syment : Word := 0
  apirev : BitVec 8 := 0
  rel : Ptr := 0
  jmprel : Ptr := 0
  relsz : Word := 0
  jmprelsz : Word := 0
  relent : Word := 24
  pltgot : Ptr := 0
  deriving DecidableEq

section
variable (p : Pmm) (apientry : ApiFunction → Word)

/-- The address that stands for an API function in the kernel. -/
def apiAddress (f : ApiFunction) : Word := pmmGetPinionLoadAddr p + apientry f

def apiResolve (m : Memory 64) (symbol : Ptr) : Word :=
  match ApiFunction.all.find? fun f => !strcmp m symbol f.symbol with
  | some f => apiAddress p apientry f
  | none => 0

variable (kernelBase : Ptr)

def relocate (d : Dynamic) (r : Ptr) (m : Memory 64) : Memory 64 :=
  let rela := Rela.read m r
  let sym := Sym.read m (d.sym + d.syment * rela.rSym.setWidth 64)
  if rela.rType = 7 then
    write64 m (kernelBase + rela.rOffset)
      (apiResolve p apientry m (d.str + sym.stName.setWidth 64) + rela.rAddend)
  else if rela.rType = 8 then
    write64 m (kernelBase + rela.rOffset) (kernelBase + rela.rAddend)
  else m

/-- One turn of the loop over the dynamic section; the second component is `needed_off`. -/
def collect : Dynamic × Word → Dyn → Dynamic × Word
  | (d, neededOff), e =>
    if e.dTag = 5 then ({ d with str := kernelBase + e.dVal }, neededOff)
    else if e.dTag = 7 then ({ d with rel := kernelBase + e.dVal }, neededOff)
    else if e.dTag = 8 then ({ d with relsz := e.dVal }, neededOff)
    else if e.dTag = 9 then ({ d with relent := e.dVal }, neededOff)
    else if e.dTag = 2 then ({ d with jmprelsz := e.dVal }, neededOff)
    else if e.dTag = 23 then ({ d with jmprel := kernelBase + e.dVal }, neededOff)
    else if e.dTag = 1 then (d, e.dVal)
    else if e.dTag = 6 then ({ d with sym := kernelBase + e.dVal }, neededOff)
    else if e.dTag = 11 then ({ d with syment := e.dVal }, neededOff)
    else if e.dTag = 3 then ({ d with pltgot := kernelBase + e.dVal }, neededOff)
    else (d, neededOff)

/-- The loop over the dynamic section, from the entry at `a` on. -/
def collectAll (m : Memory 64) : ℕ → Ptr → Dynamic × Word → Option (Dynamic × Word)
  | 0, _, _ => none
  | fuel+1, a, s =>
    if (Dyn.read m a).dTag = 0 then some s
    else collectAll m fuel (a + 16) (collect kernelBase s (Dyn.read m a))

/-- The loop over DT_JMPREL. -/
def relocateAll (d : Dynamic) : ℕ → Word → Memory 64 → Option (Memory 64)
  | 0, _, _ => none
  | fuel+1, i, m =>
    if i < d.jmprelsz then
      relocateAll d fuel (i + d.relent) (relocate p apientry kernelBase d (d.jmprel + i) m)
    else some m

def fixupKernel (fuel : ℕ) (m : Memory 64) (dynamic : Ptr) : Option (Memory 64) := do
  let (d, neededOff) ← collectAll kernelBase m fuel dynamic ({}, 0)
  let needed := d.str + neededOff
  let d := { d with apirev := ((m (needed + 13) - 48) <<< 4) + m (needed + 15) - 48 }
  if d.jmprel = 0 then some m
  else relocateAll p apientry kernelBase d fuel 0 m

end

/-! What a dynamic section asks for. -/

/-- The entries before the first DT_NULL. -/
def Lists (m : Memory 64) : Ptr → List Dyn → Prop
  | a, [] => (Dyn.read m a).dTag = 0
  | a, e :: es => Dyn.read m a = e ∧ e.dTag ≠ 0 ∧ Lists m (a + 16) es

instance decLists (m : Memory 64) : ∀ (a : Ptr) (es : List Dyn), Decidable (Lists m a es)
  | _, [] => inferInstanceAs (Decidable (_ = _))
  | a, _ :: es => haveI := decLists m (a + 16) es; inferInstanceAs (Decidable (_ ∧ _ ∧ _))

/-- The value of a tag; of several entries the last one counts. -/
def tagged (es : List Dyn) (t : Word) : Option Word :=
  (es.reverse.find? fun e => e.dTag = t).map Dyn.dVal

/-- The string at `a`, up to its NUL, is the given one. -/
def Spells (m : Memory 64) : Ptr → List (BitVec 8) → Prop
  | a, [] => m a = 0
  | a, b :: bs => m a = b ∧ Spells m (a + 1) bs

instance decSpells (m : Memory 64) : ∀ (a : Ptr) (bs : List (BitVec 8)), Decidable (Spells m a bs)
  | _, [] => inferInstanceAs (Decidable (_ = _))
  | a, _ :: bs => haveI := decSpells m (a + 1) bs; inferInstanceAs (Decidable (_ ∧ _))

section
variable (kernelBase : Ptr)

/-- The address under a tag, NULL without the tag. -/
def pointer (es : List Dyn) (t : Word) : Ptr := (tagged es t).elim 0 fun v => kernelBase + v

/-- The entries of a table of relocations, by the tag of its address and that of its size. -/
def relaTable (es : List Dyn) (t size : Word) : List Ptr :=
  (tagged es t).elim [] fun v =>
    (List.range (((tagged es size).getD 0).toNat / 24)).map fun k =>
      kernelBase + v + BitVec.ofNat 64 (24 * k)

/-- The entries of DT_RELA and of DT_JMPREL. -/
def relas (es : List Dyn) : List Ptr :=
  relaTable kernelBase es 7 8 ++ relaTable kernelBase es 23 2

/-- The word that the entry at `r` is about. -/
def relaTarget (m : Memory 64) (r : Ptr) : Ptr := kernelBase + (Rela.read m r).rOffset

/-- R_X86_64_JUMP_SLOT or R_X86_64_RELATIVE. -/
def Applies (m : Memory 64) (r : Ptr) : Prop :=
  (Rela.read m r).rType = 7 ∨ (Rela.read m r).rType = 8

instance (m : Memory 64) (r : Ptr) : Decidable (Applies m r) := inferInstanceAs (Decidable (_ ∨ _))

/-- The symbol that the entry at `r` names. -/
def symbolAt (m : Memory 64) (es : List Dyn) (r : Ptr) : Ptr :=
  pointer kernelBase es 6 + 24 * (Rela.read m r).rSym.setWidth 64

/-- The name of that symbol. -/
def nameAt (m : Memory 64) (es : List Dyn) (r : Ptr) : Ptr :=
  pointer kernelBase es 5 + (Sym.read m (symbolAt kernelBase m es r)).stName.setWidth 64

/-- A dynamic section as a linker leaves it: entries of 24 bytes, and no relocation hits another
one, a relocation table or a symbol that a relocation names. -/
structure WellFormed (m : Memory 64) (dynamic : Ptr) (es : List Dyn) : Prop where
  lists : Lists m dynamic es
  relaent : (tagged es 9).getD 24 = 24
  pltrelsz : 24 ∣ ((tagged es 2).getD 0).toNat
  syment : ∀ r ∈ relas kernelBase es, (Rela.read m r).rType = 7 → tagged es 11 = some 24
  targets : ∀ r ∈ relas kernelBase es, Applies m r → ∀ r' ∈ relas kernelBase es, Applies m r' →
    r ≠ r' → Separate (relaTarget kernelBase m r) 8 (relaTarget kernelBase m r') 8
  tables : ∀ r ∈ relas kernelBase es, Applies m r → ∀ r' ∈ relas kernelBase es,
    Separate (relaTarget kernelBase m r) 8 r' 24
  symbols : ∀ r ∈ relas kernelBase es, Applies m r → ∀ r' ∈ relas kernelBase es,
    (Rela.read m r').rType = 7 →
      Separate (relaTarget kernelBase m r) 8 (symbolAt kernelBase m es r') 24
  strings : ∀ r ∈ relas kernelBase es, Applies m r → ∀ r' ∈ relas kernelBase es,
    (Rela.read m r').rType = 7 → ∀ f : ApiFunction, Spells m (nameAt kernelBase m es r') f.symbol →
      Separate (relaTarget kernelBase m r) 8 (nameAt kernelBase m es r') (f.symbol.length + 1)

variable (p : Pmm) (apientry : ApiFunction → Word)

/-- In `m'` the word of the entry at `r` of `m` holds what the entry says. -/
def Applied (m m' : Memory 64) (es : List Dyn) (r : Ptr) : Prop :=
  ((Rela.read m r).rType = 8 →
    read64 m' (relaTarget kernelBase m r) = kernelBase + (Rela.read m r).rAddend) ∧
  ((Rela.read m r).rType = 7 → ∀ f : ApiFunction, Spells m (nameAt kernelBase m es r) f.symbol →
    read64 m' (relaTarget kernelBase m r) = apiAddress p apientry f + (Rela.read m r).rAddend)

/-- All relocations are applied, and nothing else is written. -/
def Relocated (m m' : Memory 64) (es : List Dyn) : Prop :=
  (∀ r ∈ relas kernelBase es, Applied kernelBase p apientry m m' es r) ∧
    ∀ x, (∀ r ∈ relas kernelBase es, Applies m r → ¬ Within (relaTarget kernelBase m r) 8 x) →
      m' x = m x

end

/-! The loop over the dynamic section. -/

section
variable {kernelBase : Ptr}

theorem collectAll_eq {m : Memory 64} {es : List Dyn} {a : Ptr} (h : Lists m a es)
    (s : Dynamic × Word) {fuel : ℕ} (hf : es.length < fuel) :
    collectAll kernelBase m fuel a s = some (es.foldl (collect kernelBase) s) := by
  induction es generalizing a s fuel with
  | nil =>
    obtain ⟨fuel, rfl⟩ : ∃ k, fuel = k + 1 := ⟨fuel - 1, by simp only [List.length_nil] at hf; omega⟩
    exact if_pos h
  | cons e es ih =>
    obtain ⟨he, hne, hs⟩ := h
    obtain ⟨fuel, rfl⟩ : ∃ k, fuel = k + 1 := ⟨fuel - 1, by omega⟩
    unfold collectAll
    rw [he, if_neg hne]
    exact ih hs _ (by simpa only [List.length_cons, Nat.add_lt_add_iff_right] using hf)

theorem tagged_append (es : List Dyn) (e : Dyn) (t : Word) :
    tagged (es ++ [e]) t = if e.dTag = t then some e.dVal else tagged es t := by
  unfold tagged
  rw [List.reverse_append, List.reverse_singleton, List.singleton_append, List.find?_cons]
  by_cases h : e.dTag = t
  · rw [if_pos h, decide_eq_true h]
    rfl
  · rw [if_neg h, decide_eq_false h]

/-- The tags that the loop knows. -/
def dynTags : List Word := [5, 7, 8, 9, 2, 23, 1, 6, 11, 3]

theorem collect_other {s : Dynamic × Word} {e : Dyn} (h : e.dTag ∉ dynTags) :
    collect kernelBase s e = s := by
  simp only [dynTags, List.mem_cons, List.not_mem_nil, or_false, not_or] at h
  obtain ⟨h5, h7, h8, h9, h2, h23, h1, h6, h11, h3⟩ := h
  obtain ⟨d, neededOff⟩ := s
  dsimp only [collect]
  rw [if_neg h5, if_neg h7, if_neg h8, if_neg h9, if_neg h2, if_neg h23, if_neg h1, if_neg h6,
    if_neg h11, if_neg h3]

/-- What one tag alone sets holds the last value of that tag. -/
theorem foldl_collect {α : Type*} (f : Dynamic × Word → α) {g : Word → α} {t : Word}
    (ht : t ∈ dynTags) (h : ∀ tag ∈ dynTags, ∀ (s : Dynamic × Word) (v : Word),
      f (collect kernelBase s ⟨tag, v⟩) = if tag = t then g v else f s)
    (es : List Dyn) (s : Dynamic × Word) :
    f (es.foldl (collect kernelBase) s) = (tagged es t).elim (f s) g := by
  have hstep : ∀ s e, f (collect kernelBase s e) = if e.dTag = t then g e.dVal else f s := by
    intro s e
    by_cases he : e.dTag ∈ dynTags
    · exact h e.dTag he s e.dVal
    · rw [collect_other he, if_neg (ne_of_mem_of_not_mem ht he).symm]
  induction es using List.reverseRecOn with
  | nil => rfl
  | append_singleton es e ih =>
    rw [List.foldl_append, List.foldl_cons, List.foldl_nil, hstep, ih, tagged_append]
    by_cases ht : e.dTag = t
    · rw [if_pos ht, if_pos ht]
      rfl
    · rw [if_neg ht, if_neg ht]

/-- What fixup_kernel has collected. -/
structure Collected (kernelBase : Ptr) (es : List Dyn) (d : Dynamic) : Prop where
  str : d.str = pointer kernelBase es 5
  sym : d.sym = pointer kernelBase es 6
  syment : d.syment = (tagged es 11).getD 0
  jmprel : d.jmprel = pointer kernelBase es 23
  jmprelsz : d.jmprelsz = (tagged es 2).getD 0
  relent : d.relent = (tagged es 9).getD 24

theorem collected (es : List Dyn) :
    Collected kernelBase es (es.foldl (collect kernelBase) ({}, 0)).1 := by
  constructor
  · refine foldl_collect (fun s => s.1.str) (by decide) (fun tag htag s v => ?_) es _
    fin_cases htag <;> rfl
  · refine foldl_collect (fun s => s.1.sym) (by decide) (fun tag htag s v => ?_) es _
    fin_cases htag <;> rfl
  · refine (foldl_collect (fun s => s.1.syment) (g := id) (t := 11) (by decide)
      (fun tag htag s v => ?_) es _).trans (by cases tagged es 11 <;> rfl)
    fin_cases htag <;> rfl
  · refine foldl_collect (fun s => s.1.jmprel) (by decide) (fun tag htag s v => ?_) es _
    fin_cases htag <;> rfl
  · refine (foldl_collect (fun s => s.1.jmprelsz) (g := id) (t := 2) (by decide)
      (fun tag htag s v => ?_) es _).trans (by cases tagged es 2 <;> rfl)
    fin_cases htag <;> rfl
  · refine (foldl_collect (fun s => s.1.relent) (g := id) (t := 9) (by decide)
      (fun tag htag s v => ?_) es _).trans (by cases tagged es 9 <;> rfl)
    fin_cases htag <;> rfl

end

/-! The names of the API. -/

/-- strcmp on two strings that hold no NUL. -/
def differs : List (BitVec 8) → List (BitVec 8) → Bool
  | b :: bs, c :: cs => if b ≠ c then true else differs bs cs
  | _, _ => false

theorem strcmp_spells {m : Memory 64} {bs : List (BitVec 8)} {a : Ptr} (h : Spells m a bs)
    (hz : 0 ∉ bs) (cs : List (BitVec 8)) : strcmp m a cs = differs bs cs := by
  induction bs generalizing a cs with
  | nil =>
    cases cs with
    | nil => rfl
    | cons c cs => exact if_pos h
  | cons b bs ih =>
    obtain ⟨hb, hs⟩ := h
    rw [List.mem_cons, not_or] at hz
    cases cs with
    | nil => rfl
    | cons c cs =>
      unfold strcmp differs
      rw [hb, if_neg (Ne.symm hz.1), ih hs hz.2]

/-- No name of the API starts another one. -/
theorem differs_symbol (f g : ApiFunction) : differs f.symbol g.symbol = decide (g ≠ f) := by
  have key : ∀ f ∈ ApiFunction.all, ∀ g ∈ ApiFunction.all,
      differs f.symbol g.symbol = decide (g ≠ f) := by decide +kernel
  exact key f f.mem_all g g.mem_all

theorem zero_notMem_symbol (f : ApiFunction) : 0 ∉ f.symbol := by
  have key : ∀ f ∈ ApiFunction.all, 0 ∉ f.symbol := by decide +kernel
  exact key f f.mem_all

/-- A symbol under the name of an API function resolves to that function. -/
theorem apiResolve_spells (p : Pmm) (apientry : ApiFunction → Word) {m : Memory 64} {a : Ptr}
    {f : ApiFunction} (h : Spells m a f.symbol) :
    apiResolve p apientry m a = apiAddress p apientry f := by
  have hfind : (ApiFunction.all.find? fun g => !strcmp m a g.symbol) = some f := by
    have hfun : (fun g : ApiFunction => !strcmp m a g.symbol) = fun g => decide (g = f) := by
      funext g
      rw [strcmp_spells h (zero_notMem_symbol f), differs_symbol, decide_not, Bool.not_not]
    rw [hfun]
    cases f <;> decide
  unfold apiResolve
  rw [hfind]

theorem Spells.congr {m m' : Memory 64} {bs : List (BitVec 8)} {a : Ptr} (h : Spells m a bs)
    (hw : bs.length < 2 ^ 64) (heq : ∀ x, Within a (bs.length + 1) x → m' x = m x) :
    Spells m' a bs := by
  induction bs generalizing a with
  | nil =>
    have h0 := heq (a + BitVec.ofNat 64 0) (within_add a (by decide) (by decide))
    rw [BitVec.add_zero] at h0
    exact h0.trans h
  | cons b bs ih =>
    obtain ⟨hb, hs⟩ := h
    rw [List.length_cons] at hw heq
    have h0 := heq (a + BitVec.ofNat 64 0) (within_add a (by omega) (by decide))
    rw [BitVec.add_zero] at h0
    refine ⟨h0.trans hb, ih hs (by omega) fun x hx => heq x ?_⟩
    exact within_field 1 hx (by simp only [BitVec.reduceToNat]; omega) (by omega)

/-! The loop over DT_JMPREL. -/

section
variable {p : Pmm} {apientry : ApiFunction → Word} {kernelBase : Ptr}

/-- The table of DT_JMPREL, when its address is not NULL. -/
def walked (kernelBase : Ptr) (es : List Dyn) : List Ptr :=
  if pointer kernelBase es 23 = 0 then [] else relaTable kernelBase es 23 2

/-- Where the loop is after the entries `done`. -/
structure Progress (p : Pmm) (apientry : ApiFunction → Word) (kernelBase : Ptr) (es : List Dyn)
    (m : Memory 64) (done : List Ptr) (m' : Memory 64) : Prop where
  applied : ∀ r ∈ done, Applied kernelBase p apientry m m' es r
  frame : ∀ x, (∀ r ∈ done, Applies m r → ¬ Within (relaTarget kernelBase m r) 8 x) → m' x = m x

/-- A write of the right word at the relaTarget of `r` applies `r` and keeps what is applied. -/
theorem Progress.write {es : List Dyn} {m m' : Memory 64} {dynamic : Ptr} {done : List Ptr}
    (hw : WellFormed kernelBase m dynamic es) (h : Progress p apientry kernelBase es m done m')
    (hdone : done ⊆ relas kernelBase es) {r : Ptr} (hr : r ∈ relas kernelBase es)
    (ha : Applies m r) {v : Word}
    (hv : Applied kernelBase p apientry m (write64 m' (relaTarget kernelBase m r) v) es r) :
    Progress p apientry kernelBase es m (done ++ [r])
      (write64 m' (relaTarget kernelBase m r) v) where
  applied r' hr' := by
    by_cases hrr : r' = r
    · rw [hrr]
      exact hv
    · have hr'd : r' ∈ done := by
        rcases List.mem_append.mp hr' with hd | hd
        · exact hd
        · exact absurd (List.mem_singleton.mp hd) hrr
      have hkeep : Applies m r' →
          read64 (write64 m' (relaTarget kernelBase m r) v) (relaTarget kernelBase m r')
            = read64 m' (relaTarget kernelBase m r') := fun ha' =>
        read64_write64_apart _ _ (hw.targets r hr ha r' (hdone hr'd) ha' (Ne.symm hrr))
      obtain ⟨h8, h7⟩ := h.applied r' hr'd
      exact ⟨fun ht => (hkeep (.inr ht)).trans (h8 ht),
        fun ht f hf => (hkeep (.inl ht)).trans (h7 ht f hf)⟩
  frame x hx := by
    rw [write64_outside _ _ (hx r (List.mem_append_right _ (List.mem_singleton_self r)) ha)]
    exact h.frame x fun r' hr' => hx r' (List.mem_append_left _ hr')

/-- What no relaTarget touches is as it was. -/
theorem Progress.untouched {es : List Dyn} {m m' : Memory 64} {done : List Ptr}
    (h : Progress p apientry kernelBase es m done m') {a : Ptr} {n : ℕ}
    (ha : ∀ r ∈ done, Applies m r → Separate (relaTarget kernelBase m r) 8 a n) (x : Ptr)
    (hx : Within a n x) : m' x = m x :=
  h.frame x fun r hr happ hin => (ha r hr happ).not_within hin hx

theorem symbol_length (f : ApiFunction) : f.symbol.length < 2 ^ 64 := by
  have key : ∀ f ∈ ApiFunction.all, f.symbol.length < 2 ^ 64 := by decide +kernel
  exact key f f.mem_all

/-- One turn of the loop. -/
theorem Progress.relocate {es : List Dyn} {m m' : Memory 64} {dynamic : Ptr} {done : List Ptr}
    {d : Dynamic} (hw : WellFormed kernelBase m dynamic es) (hd : Collected kernelBase es d)
    (h : Progress p apientry kernelBase es m done m') (hdone : done ⊆ relas kernelBase es) {r : Ptr}
    (hr : r ∈ relas kernelBase es) :
    Progress p apientry kernelBase es m (done ++ [r]) (relocate p apientry kernelBase d r m') := by
  have hrela : Rela.read m' r = Rela.read m r :=
    Rela.read_congr (h.untouched fun r' hr' ha => hw.tables r' (hdone hr') ha r hr)
  unfold Pinion64.relocate
  dsimp only
  rw [hrela]
  by_cases h7 : (Rela.read m r).rType = 7
  · rw [if_pos h7]
    have hsyment : d.syment = 24 := by
      rw [hd.syment, hw.syment r hr h7]
      rfl
    have hsym : Sym.read m' (symbolAt kernelBase m es r)
        = Sym.read m (symbolAt kernelBase m es r) := by
      refine Sym.read_congr fun x hx => h.untouched (fun r' hr' ha =>
        hw.symbols r' (hdone hr') ha r hr h7) x (lt_of_lt_of_le hx (by decide))
    have hname : d.str
        + (Sym.read m' (d.sym + d.syment * (Rela.read m r).rSym.setWidth 64)).stName.setWidth 64
        = nameAt kernelBase m es r := by
      rw [hd.str, hd.sym, hsyment]
      unfold nameAt
      rw [← hsym]
      rfl
    rw [hname]
    refine h.write hw hdone hr (.inl h7) ⟨fun h8 => ?_, fun _ f hf => ?_⟩
    · rw [h7] at h8
      exact absurd h8 (by decide)
    · rw [read64_write64, apiResolve_spells p apientry (hf.congr (symbol_length f)
        (h.untouched fun r' hr' ha => hw.strings r' (hdone hr') ha r hr h7 f hf))]
  · rw [if_neg h7]
    by_cases h8 : (Rela.read m r).rType = 8
    · rw [if_pos h8]
      refine h.write hw hdone hr (.inr h8) ⟨fun _ => read64_write64 _ _ _, fun h7' => ?_⟩
      exact absurd h7' h7
    · rw [if_neg h8]
      constructor
      · intro r' hr'
        rcases List.mem_append.mp hr' with hd' | hd'
        · exact h.applied r' hd'
        · rw [List.mem_singleton.mp hd']
          exact ⟨fun h8' => absurd h8' h8, fun h7' => absurd h7' h7⟩
      · intro x hx
        exact h.frame x fun r' hr' => hx r' (List.mem_append_left _ hr')

/-- The whole loop. -/
theorem Progress.foldl {es : List Dyn} {m m' : Memory 64} {dynamic : Ptr} {done l : List Ptr}
    {d : Dynamic} (hw : WellFormed kernelBase m dynamic es) (hd : Collected kernelBase es d)
    (h : Progress p apientry kernelBase es m done m') (hdone : done ⊆ relas kernelBase es)
    (hl : l ⊆ relas kernelBase es) :
    Progress p apientry kernelBase es m (done ++ l)
      (l.foldl (fun m r => Pinion64.relocate p apientry kernelBase d r m) m') := by
  induction l generalizing done m' with
  | nil =>
    rw [List.append_nil]
    exact h
  | cons r l ih =>
    have hr : r ∈ relas kernelBase es := hl (List.mem_cons_self ..)
    have hstep := ih (h.relocate hw hd hdone hr)
      (List.append_subset.mpr ⟨hdone, List.cons_subset.mpr ⟨hr, List.nil_subset _⟩⟩)
      fun x hx => hl (List.mem_cons_of_mem _ hx)
    rw [List.append_assoc, List.singleton_append] at hstep
    exact hstep

/-- The loop is a fold over the entries it has still to do. -/
theorem relocateAll_eq {d : Dynamic} (hrelent : d.relent = 24) {n k fuel : ℕ}
    (hsize : d.jmprelsz.toNat = 24 * (k + n)) (hf : n < fuel) (m : Memory 64) :
    relocateAll p apientry kernelBase d fuel (BitVec.ofNat 64 (24 * k)) m =
      some (((List.range' k n).map fun i => d.jmprel + BitVec.ofNat 64 (24 * i)).foldl
        (fun m r => Pinion64.relocate p apientry kernelBase d r m) m) := by
  have hlt : d.jmprelsz.toNat < 2 ^ 64 := d.jmprelsz.isLt
  induction n generalizing k fuel m with
  | zero =>
    obtain ⟨fuel, rfl⟩ : ∃ j, fuel = j + 1 := ⟨fuel - 1, by omega⟩
    refine if_neg ?_
    rw [BitVec.lt_def, BitVec.toNat_ofNat, Nat.mod_eq_of_lt (by omega)]
    omega
  | succ n ih =>
    obtain ⟨fuel, rfl⟩ : ∃ j, fuel = j + 1 := ⟨fuel - 1, by omega⟩
    have hi : BitVec.ofNat 64 (24 * k) < d.jmprelsz := by
      rw [BitVec.lt_def, BitVec.toNat_ofNat, Nat.mod_eq_of_lt (by omega)]
      omega
    have hnext : BitVec.ofNat 64 (24 * k) + d.relent = BitVec.ofNat 64 (24 * (k + 1)) := by
      rw [hrelent, Nat.mul_add, BitVec.ofNat_add]
      rfl
    unfold relocateAll
    rw [if_pos hi, hnext, ih (by omega) (by omega), List.range'_succ, List.map_cons, List.foldl_cons]

/-- What the loop has not met is as far as it was. -/
theorem Progress.other {es : List Dyn} {m m' : Memory 64} {dynamic : Ptr} {done : List Ptr}
    (hw : WellFormed kernelBase m dynamic es) (h : Progress p apientry kernelBase es m done m')
    (hdone : done ⊆ relas kernelBase es) {r : Ptr} (hr : r ∈ relas kernelBase es) (hrd : r ∉ done) :
    Applied kernelBase p apientry m m' es r ↔ Applied kernelBase p apientry m m es r := by
  have hkeep : Applies m r →
      read64 m' (relaTarget kernelBase m r) = read64 m (relaTarget kernelBase m r) := by
    intro ha
    refine readLE_eq_of_within (n := 8) (by decide) (h.untouched fun r' hr' ha' => ?_)
    exact hw.targets r' (hdone hr') ha' r hr ha (ne_of_mem_of_not_mem hr' hrd)
  constructor
  · rintro ⟨h8, h7⟩
    exact ⟨fun ht => (hkeep (.inr ht)).symm.trans (h8 ht),
      fun ht f hf => (hkeep (.inl ht)).symm.trans (h7 ht f hf)⟩
  · rintro ⟨h8, h7⟩
    exact ⟨fun ht => (hkeep (.inr ht)).trans (h8 ht),
      fun ht f hf => (hkeep (.inl ht)).trans (h7 ht f hf)⟩

theorem walked_subset (es : List Dyn) : walked kernelBase es ⊆ relas kernelBase es := by
  intro r hr
  unfold walked at hr
  split at hr
  · exact absurd hr List.not_mem_nil
  · exact List.mem_append_right _ hr

/-- fixup_kernel returns, and applies DT_JMPREL. -/
theorem fixupKernel_progress (p : Pmm) (apientry : ApiFunction → Word) {es : List Dyn}
    {m : Memory 64} {dynamic : Ptr} (hw : WellFormed kernelBase m dynamic es) :
    ∃ m', (∀ fuel, es.length + ((tagged es 2).getD 0).toNat < fuel →
        fixupKernel p apientry kernelBase fuel m dynamic = some m') ∧
      Progress p apientry kernelBase es m (walked kernelBase es) m' := by
  obtain ⟨d, hd, hfix⟩ : ∃ d, Collected kernelBase es d ∧ ∀ fuel, es.length < fuel →
      fixupKernel p apientry kernelBase fuel m dynamic =
        if d.jmprel = 0 then some m else relocateAll p apientry kernelBase d fuel 0 m := by
    have hc : Collected kernelBase es (es.foldl (collect kernelBase) ({}, 0)).1 := collected es
    obtain ⟨⟨d, neededOff⟩, hs⟩ : ∃ s, es.foldl (collect kernelBase) ({}, 0) = s := ⟨_, rfl⟩
    rw [hs] at hc
    let apirev := ((m (d.str + neededOff + 13) - 48) <<< 4) + m (d.str + neededOff + 15) - 48
    refine ⟨{ d with apirev }, ⟨hc.str, hc.sym, hc.syment, hc.jmprel, hc.jmprelsz, hc.relent⟩,
      fun fuel hf => ?_⟩
    unfold fixupKernel
    rw [collectAll_eq hw.lists _ hf, hs]
    rfl
  have hnil : Progress p apientry kernelBase es m [] m :=
    ⟨fun _ hr => absurd hr List.not_mem_nil, fun _ _ => rfl⟩
  by_cases hz : pointer kernelBase es 23 = 0
  · refine ⟨m, fun fuel hf => ?_, ?_⟩
    · rw [hfix fuel (by omega), hd.jmprel, if_pos hz]
    · rw [walked, if_pos hz]
      exact hnil
  · obtain ⟨n, hn⟩ := hw.pltrelsz
    have htable : walked kernelBase es =
        (List.range' 0 n).map fun i => d.jmprel + BitVec.ofNat 64 (24 * i) := by
      rw [walked, if_neg hz, relaTable, hd.jmprel, hn, Nat.mul_div_cancel_left _ (by decide),
        ← List.range_eq_range']
      unfold pointer at hz ⊢
      cases htag : tagged es 23 with
      | none =>
        rw [htag] at hz
        exact absurd rfl hz
      | some v => rfl
    have hfold := hnil.foldl hw hd (List.nil_subset _) (walked_subset es)
    rw [List.nil_append] at hfold
    refine ⟨_, fun fuel hf => ?_, hfold⟩
    rw [hfix fuel (by omega), hd.jmprel, if_neg hz, htable]
    have hrelent : d.relent = 24 := hd.relent.trans hw.relaent
    have hsize : d.jmprelsz.toNat = 24 * (0 + n) := by
      rw [hd.jmprelsz, hn, Nat.zero_add]
    exact relocateAll_eq hrelent hsize (by omega) m

end

/-- Exactly the entries outside a walked DT_JMPREL stay as they are in the loaded image: the
relocations are all applied if and only if these need none. -/
theorem fixup_kernel_relocates (p : Pmm) (apientry : ApiFunction → Word) (kernelBase : Ptr)
    (m : Memory 64) (dynamic : Ptr) (es : List Dyn) (hw : WellFormed kernelBase m dynamic es) :
    ∃ m', (∀ fuel, es.length + ((tagged es 2).getD 0).toNat < fuel →
        fixupKernel p apientry kernelBase fuel m dynamic = some m') ∧
      (Relocated kernelBase p apientry m m' es ↔
        ∀ r ∈ relas kernelBase es, r ∉ walked kernelBase es →
          Applied kernelBase p apientry m m es r) := by
  obtain ⟨m', hret, hprog⟩ := fixupKernel_progress p apientry hw
  refine ⟨m', hret, ?_⟩
  constructor
  · rintro ⟨happ, -⟩ r hr hrw
    exact (hprog.other hw (walked_subset es) hr hrw).mp (happ r hr)
  · intro hrest
    constructor
    · intro r hr
      by_cases hrw : r ∈ walked kernelBase es
      · exact hprog.applied r hrw
      · exact (hprog.other hw (walked_subset es) hr hrw).mpr (hrest r hr hrw)
    · intro x hx
      exact hprog.frame x fun r hr => hx r (walked_subset es hr)

/-! An image with one R_X86_64_RELATIVE entry in DT_RELA, whose word holds `v`, and one
R_X86_64_JUMP_SLOT entry for page_set in DT_JMPREL. -/

def sampleDynamic : List Dyn :=
  [⟨5, 0x400⟩, ⟨6, 0x500⟩, ⟨11, 24⟩, ⟨7, 0x200⟩, ⟨8, 24⟩, ⟨9, 24⟩, ⟨23, 0x240⟩, ⟨2, 24⟩]

def sampleImage (v : Word) : Memory 64 := fun x =>
  BitVec.ofNat 8 (([(0x1200, 0x300), (0x1208, 8), (0x1210, 0x10), (0x1240, 0x308),
    (0x1248, 0x100000007), (0x1300, v.toNat), (0x1518, 1),
    (0x1401, 0x5F4E4F494E49505F5F), (0x140A, 0x7465735F65676170),
    (0x100, 5), (0x108, 0x400), (0x110, 6), (0x118, 0x500), (0x120, 11), (0x128, 24), (0x130, 7),
    (0x138, 0x200), (0x140, 8), (0x148, 24), (0x150, 9), (0x158, 24), (0x160, 23), (0x168, 0x240),
    (0x170, 2), (0x178, 24)] : List (ℕ × ℕ)).foldl (fun n e => n ||| e.2 <<< (8 * e.1)) 0
      >>> (8 * x.toNat))

theorem sampleImage_relas : relas 0x1000 sampleDynamic = [0x1200, 0x1240] := by
  decide +kernel

theorem sampleImage_walked : walked 0x1000 sampleDynamic = [0x1240] := by
  decide +kernel

theorem sampleImage_rela {v : Word} (hv : v = 0 ∨ v = 0x1010) :
    Rela.read (sampleImage v) 0x1200 = ⟨0x300, 8, 0, 0x10⟩ := by
  rcases hv with rfl | rfl <;> decide +kernel

/-- The entry of DT_RELA is applied when its word holds the value already. -/
theorem sampleImage_applied (p : Pmm) (apientry : ApiFunction → Word) {v : Word}
    (hv : v = 0 ∨ v = 0x1010) :
    Applied 0x1000 p apientry (sampleImage v) (sampleImage v) sampleDynamic 0x1200 ↔ v = 0x1010 := by
  have hread : read64 (sampleImage v) (0x1000 + 0x300) = v := by
    rcases hv with rfl | rfl <;> decide +kernel
  unfold Applied relaTarget
  rw [sampleImage_rela hv, hread]
  constructor
  · rintro ⟨h8, -⟩
    exact h8 rfl
  · intro h
    exact ⟨fun _ => h, fun h7 => absurd h7 (by decide)⟩

theorem sampleImage_wellFormed {v : Word} (hv : v = 0 ∨ v = 0x1010) :
    WellFormed 0x1000 (sampleImage v) 0x100 sampleDynamic := by
  have hrela := sampleImage_rela hv
  have hjmprel : Rela.read (sampleImage v) 0x1240 = ⟨0x308, 7, 1, 0⟩ := by
    rcases hv with rfl | rfl <;> decide +kernel
  have hname : nameAt 0x1000 (sampleImage v) sampleDynamic 0x1240 = 0x1401 := by
    rcases hv with rfl | rfl <;> decide +kernel
  have hspells : ∀ f ∈ ApiFunction.all, Spells (sampleImage v) 0x1401 f.symbol → f = .pageSet := by
    rcases hv with rfl | rfl <;> decide +kernel
  have hsym : pointer 0x1000 sampleDynamic 6 = 0x1500 := by decide
  constructor
  · rcases hv with rfl | rfl <;> decide +kernel
  · decide
  · decide
  · intro r _ _
    rfl
  all_goals
    simp only [sampleImage_relas, List.forall_mem_cons, List.not_mem_nil, false_implies, implies_true,
      and_true, relaTarget, symbolAt, Applies, hrela, hjmprel, hsym, hname]
  · decide
  · decide
  · decide
  · refine ⟨fun _ => ⟨fun h => absurd h (by decide), fun _ f hf => ?_⟩,
      fun _ => ⟨fun h => absurd h (by decide), fun _ f hf => ?_⟩⟩
    · rw [hspells f f.mem_all hf]
      decide +kernel
    · rw [hspells f f.mem_all hf]
      decide +kernel

/-- The word of DT_RELA already holds its value: all is applied. -/
theorem fixup_kernel_relocates_sample :
    ∃ m', (∀ fuel, 32 < fuel →
        fixupKernel ⟨base, 0, 0⟩ (fun _ => 0x4000) 0x1000 fuel (sampleImage 0x1010) 0x100 = some m') ∧
      Relocated 0x1000 ⟨base, 0, 0⟩ (fun _ => 0x4000) (sampleImage 0x1010) m' sampleDynamic := by
  obtain ⟨m', hret, hiff⟩ := fixup_kernel_relocates ⟨base, 0, 0⟩ (fun _ => 0x4000) 0x1000
    (sampleImage 0x1010) 0x100 sampleDynamic (sampleImage_wellFormed (.inr rfl))
  refine ⟨m', hret, hiff.mpr fun r hr hrw => ?_⟩
  rw [sampleImage_relas, List.mem_pair] at hr
  rw [sampleImage_walked, List.mem_singleton] at hrw
  rw [hr.resolve_right hrw]
  exact (sampleImage_applied _ _ (.inr rfl)).mpr rfl

/-- The word of DT_RELA holds something else: it is left as it is. -/
theorem fixup_kernel_leaves_rela :
    ∃ m', (∀ fuel, 32 < fuel →
        fixupKernel ⟨base, 0, 0⟩ (fun _ => 0x4000) 0x1000 fuel (sampleImage 0) 0x100 = some m') ∧
      ¬ Relocated 0x1000 ⟨base, 0, 0⟩ (fun _ => 0x4000) (sampleImage 0) m' sampleDynamic := by
  have hw := sampleImage_wellFormed (v := 0) (.inl rfl)
  obtain ⟨m', hret, hprog⟩ := fixupKernel_progress ⟨base, 0, 0⟩ (fun _ => 0x4000) hw
  refine ⟨m', hret, fun ⟨happ, _⟩ => ?_⟩
  have hr : 0x1200 ∈ relas 0x1000 sampleDynamic := by
    rw [sampleImage_relas]
    exact List.mem_cons_self ..
  have hrw : (0x1200 : Ptr) ∉ walked 0x1000 sampleDynamic := by
    rw [sampleImage_walked]
    decide
  have hnow := (hprog.other hw (walked_subset _) hr hrw).mp (happ _ hr)
  exact absurd ((sampleImage_applied _ _ (.inl rfl)).mp hnow) (by decide)

end Pinion64
