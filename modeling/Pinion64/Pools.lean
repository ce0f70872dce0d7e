import Pinion64.Reach
import Pinion64.Lib.Family

/-! The block allocators that alloc.s makes with one macro: four pools over one page allocator,
each with a free list threaded through the first words of its blocks. -/
namespace Pinion64
open Intrusive Transition

/-- The instances of the macro. -/
inductive Pool
  | tcb
  | ccb
  | pge
  | pcx
  deriving DecidableEq

structure Pools where
  /-- The first word of each page. -/
  link : Ptr → Ptr
  list : Pool → Ptr
  pmm : Pmm

namespace Pools

/-- The code before `.pull`: the head of the list leaves it. -/
def pop (s : Pools) (q : Pool) : Ptr × Pools :=
  (s.list q, { s with list := Function.update s.list q (s.link (s.list q)) })

def push (s : Pools) (q : Pool) (p : Ptr) : Pools :=
  { s with
    link := Function.update s.link p (s.list q)
    list := Function.update s.list q p }

/-- The retry finds the page that has just been pushed. -/
def alloc (s : Pools) (q : Pool) : Ptr × Pools :=
  if s.list q ≠ 0 then s.pop q
  else
    let (page, pmm) := pmmAlloc s.pmm
    let s := { s with pmm := pmm }
    if page = 0 then (0, s) else (s.push q page).pop q

def free (s : Pools) (q : Pool) (p : Ptr) : Pools := s.push q p

variable {s : Pools} {q : Pool}

theorem alloc_of_list (hq : s.list q ≠ 0) : s.alloc q = s.pop q := if_pos hq

theorem alloc_of_page (hq : s.list q = 0) (hp : (pmmAlloc s.pmm).1 ≠ 0) :
    s.alloc q = (Pools.push { s with pmm := (pmmAlloc s.pmm).2 } q
      (pmmAlloc s.pmm).1).pop q := by
  rw [Pools.alloc, if_neg (not_not.mpr hq)]
  exact if_neg hp

theorem alloc_of_none (hq : s.list q = 0) (hp : (pmmAlloc s.pmm).1 = 0) :
    s.alloc q = (0, { s with pmm := (pmmAlloc s.pmm).2 }) := by
  rw [Pools.alloc, if_neg (not_not.mpr hq)]
  exact if_pos hp

/-- The answer is NULL when the list is empty and there is no page left. -/
theorem alloc_ne_zero : (s.alloc q).1 ≠ 0 ↔ s.list q ≠ 0 ∨ (pmmAlloc s.pmm).1 ≠ 0 := by
  by_cases hq : s.list q = 0
  · by_cases hp : (pmmAlloc s.pmm).1 = 0
    · rw [Pools.alloc_of_none hq hp]
      simp [hq, hp]
    · have hpage : (s.alloc q).1 = (pmmAlloc s.pmm).1 := by
        rw [Pools.alloc_of_page hq hp]
        change Function.update s.list q (pmmAlloc s.pmm).1 q = _
        exact Function.update_self ..
      rw [hpage]
      exact iff_of_true hp (Or.inr hp)
  · rw [Pools.alloc_of_list hq]
    exact iff_of_true hq (Or.inl hq)

end Pools

/-- `held` lists the blocks that have been allocated and not freed, with their pools. -/
structure Heap where
  pools : Pools
  held : List (Pool × Ptr)

inductive HeapOp
  | alloc (q : Pool)
  | free (q : Pool) (p : Ptr)
  /-- A holder writes the first word of its block. -/
  | write (p : Ptr) (w : Word)

namespace Heap

/-- The pages that are allocated, whichever pool they are from. -/
def blocks (s : Heap) : List Ptr := s.held.map Prod.snd

def step (s : Heap) : HeapOp → Option Heap
  | .alloc q =>
    let (p, pools) := s.pools.alloc q
    some ⟨pools, if p = 0 then s.held else (q, p) :: s.held⟩
  | .free q p =>
    if (q, p) ∈ s.held then some ⟨s.pools.free q p, s.held.erase (q, p)⟩ else none
  | .write p w =>
    if p ∈ s.blocks then some { s with pools.link := Function.update s.pools.link p w } else none

/-- No block is handed out twice, and an answer NULL means that there is none left. -/
structure Disjoint (s : Heap) : Prop where
  pages : ∀ p ∈ s.blocks, p ≠ 0 ∧ p.toNat % 4096 = 0
  distinct : s.blocks.Nodup
  lists : ∃ nodes : Pool → List Ptr,
    (∀ q, Chain s.pools.link 0 (s.pools.list q) (nodes q)) ∧
    (∀ q, (nodes q).Nodup) ∧ (∀ q r, q ≠ r → (nodes q).Disjoint (nodes r)) ∧
    ∀ p ∈ s.blocks, ∀ q, p ∉ nodes q
  null : ∀ q, (s.pools.alloc q).1 = 0 ↔
    s.pools.list q = 0 ∧ s.pools.pmm.pmmAllocBase = s.pools.pmm.pmmAllocLimit
  unchanged : ∀ q, (s.pools.alloc q).1 = 0 → (s.pools.alloc q).2 = s.pools

/-- The pages behind which the page allocator goes on. -/
def Below (s : Heap) (p : Ptr) : Prop :=
  p ≠ 0 ∧ p.toNat % 4096 = 0 ∧ p.toNat < base.toNat + s.pools.pmm.pmmAllocBase.toNat

/-- What every operation keeps; `nodes` lists the free blocks of each pool. -/
structure Inv (s : Heap) (nodes : Pool → List Ptr) : Prop where
  pmm : s.pools.pmm.Sound
  family : Family s.pools.link 0 s.pools.list nodes
  below : ∀ p, p ∈ s.blocks ∨ (∃ q, p ∈ nodes q) → s.Below p
  nodup : s.blocks.Nodup
  apart : ∀ p ∈ s.blocks, ∀ q, p ∉ nodes q

namespace Inv

variable {s : Heap} {nodes : Pool → List Ptr} {q : Pool} {p : Ptr}

theorem start (hp : s.pools.pmm.Sound) (hl : ∀ q, s.pools.list q = 0) (hh : s.held = []) :
    s.Inv fun _ => [] where
  pmm := hp
  family := by
    have he : s.pools.list = fun _ => 0 := funext hl
    rw [he]
    exact Family.empty
  below p hm := by simp [blocks, hh] at hm
  nodup := by simp [blocks, hh]
  apart p hm := by simp [blocks, hh] at hm

theorem mem_blocks (hp : (q, p) ∈ s.held) : p ∈ s.blocks := List.mem_map_of_mem hp

/-- The blocks that are left when one of them is freed. -/
theorem blocks_erase (hp : (q, p) ∈ s.held) :
    s.blocks.Perm (p :: (s.held.erase (q, p)).map Prod.snd) :=
  (List.perm_cons_erase hp).map Prod.snd

/-- The page allocator's answer lies behind every page it has given before. -/
theorem pull (h : s.Inv nodes) (hne : (pmmAlloc s.pools.pmm).1 ≠ 0) :
    Below { s with pools.pmm := (pmmAlloc s.pools.pmm).2 } (pmmAlloc s.pools.pmm).1 ∧
      ¬ s.Below (pmmAlloc s.pools.pmm).1 ∧
      ∀ p, s.Below p → Below { s with pools.pmm := (pmmAlloc s.pools.pmm).2 } p := by
  have he : s.pools.pmm.pmmAllocBase ≠ s.pools.pmm.pmmAllocLimit := fun he =>
    hne ((Pmm.alloc_null_iff h.pmm).mpr he)
  obtain ⟨hpage, hnext⟩ := Pmm.alloc_of_ne h.pmm he
  have ha := h.pmm.alignedBase
  refine ⟨⟨hne, ?_, ?_⟩, fun hp => ?_, fun p hp => ⟨hp.1, hp.2.1, ?_⟩⟩
  · rw [hpage]
    simp only [base, BitVec.reduceToNat]
    omega
  · simp only [hpage, hnext]
    omega
  · have hlt := hp.2.2
    omega
  · have hlt := hp.2.2
    simp only [hnext]
    omega

/-- The block `p` goes to the head of the pool `q`. -/
theorem pushed (h : s.Inv nodes) (hp : s.Below p) (hb : p ∉ s.blocks) (hn : ∀ r, p ∉ nodes r)
    (q : Pool) :
    Inv { s with pools := s.pools.push q p } (Function.update nodes q (p :: nodes q)) where
  pmm := h.pmm
  family := h.family.push hp.1 hn q
  below r hr := by
    by_cases hrp : r = p
    · exact hrp ▸ hp
    · refine h.below r (hr.imp_right ?_)
      rintro ⟨t, ht⟩
      by_cases htq : t = q
      · rw [htq, Function.update_self] at ht
        exact ⟨q, (List.mem_cons.mp ht).resolve_left hrp⟩
      · rw [Function.update_of_ne htq] at ht
        exact ⟨t, ht⟩
  nodup := h.nodup
  apart r hr t ht := by
    by_cases htq : t = q
    · rw [htq, Function.update_self, List.mem_cons] at ht
      rcases ht with rfl | ht
      · exact hb hr
      · exact h.apart r hr q ht
    · rw [Function.update_of_ne htq] at ht
      exact h.apart r hr t ht

/-- The head of the pool `q` goes to a holder. -/
theorem popped (h : s.Inv nodes) (hq : s.pools.list q ≠ 0) :
    s.pools.list q ∉ s.blocks ∧
      ∃ nodes', Inv ⟨(s.pools.pop q).2, (q, s.pools.list q) :: s.held⟩ nodes' := by
  obtain ⟨l, hl, -⟩ := (h.family.chain q).exists_cons hq
  have hmem : s.pools.list q ∈ nodes q := hl ▸ List.mem_cons_self ..
  have hout := h.family.pop_not_mem hl
  have hsub : ∀ t x, x ∈ Function.update nodes q l t → x ∈ nodes t := by
    intro t x hx
    by_cases ht : t = q
    · rw [ht, Function.update_self] at hx
      rw [ht, hl]
      exact List.mem_cons_of_mem _ hx
    · rwa [Function.update_of_ne ht] at hx
  have hnew : s.pools.list q ∉ s.blocks := fun hb => h.apart _ hb q hmem
  refine ⟨hnew, _, h.pmm, h.family.pop hl, ?_, List.nodup_cons.mpr ⟨hnew, h.nodup⟩, ?_⟩
  · rintro x (hx | ⟨t, ht⟩)
    · rcases List.mem_cons.mp hx with rfl | hx
      · exact h.below _ (Or.inr ⟨q, hmem⟩)
      · exact h.below x (Or.inl hx)
    · exact h.below x (Or.inr ⟨t, hsub t x ht⟩)
  · intro x hx t ht
    rcases List.mem_cons.mp hx with rfl | hx
    · exact hout t ht
    · exact h.apart x hx t (hsub t x ht)

/-- The page allocator moves on. -/
theorem pulled (h : s.Inv nodes) (hne : (pmmAlloc s.pools.pmm).1 ≠ 0) :
    Inv { s with pools.pmm := (pmmAlloc s.pools.pmm).2 } nodes where
  pmm := h.pmm.alloc
  family := h.family
  below r hr := (h.pull hne).2.2 r (h.below r hr)
  nodup := h.nodup
  apart := h.apart

/-- The step lemma for an allocation. -/
theorem alloc (h : s.Inv nodes) (q : Pool) :
    ((s.pools.alloc q).1 = 0 ∧ (s.pools.alloc q).2 = s.pools ∧ s.pools.list q = 0 ∧
      s.pools.pmm.pmmAllocBase = s.pools.pmm.pmmAllocLimit) ∨
    ((s.pools.alloc q).1 ≠ 0 ∧ (s.pools.list q ≠ 0 ∨
        s.pools.pmm.pmmAllocBase ≠ s.pools.pmm.pmmAllocLimit) ∧
      ∃ nodes', Inv ⟨(s.pools.alloc q).2, (q, (s.pools.alloc q).1) :: s.held⟩ nodes') := by
  by_cases hq : s.pools.list q = 0
  · by_cases hp : (pmmAlloc s.pools.pmm).1 = 0
    · have he := (Pmm.alloc_null_iff h.pmm).mp hp
      rw [Pools.alloc_of_none hq hp, Pmm.alloc_of_eq he]
      exact Or.inl ⟨rfl, rfl, hq, he⟩
    · obtain ⟨hbelow, hnew, -⟩ := h.pull hp
      have hpush := (h.pulled hp).pushed hbelow (fun hm => hnew (h.below _ (Or.inl hm)))
        (fun r hm => hnew (h.below _ (Or.inr ⟨r, hm⟩))) q
      have hhead : (Pools.push { s.pools with pmm := (pmmAlloc s.pools.pmm).2 } q
          (pmmAlloc s.pools.pmm).1).list q = (pmmAlloc s.pools.pmm).1 := Function.update_self ..
      have hpop := (hpush.popped (q := q) (by rwa [hhead])).2
      rw [Pools.alloc_of_page hq hp]
      refine Or.inr ⟨?_, Or.inr fun he => hp ((Pmm.alloc_null_iff h.pmm).mpr he), hpop⟩
      rw [Pools.pop, hhead]
      exact hp
  · rw [Pools.alloc_of_list hq]
    exact Or.inr ⟨hq, Or.inl hq, (h.popped hq).2⟩

/-- The step lemma for freeing a block. -/
theorem free (h : s.Inv nodes) (hp : (q, p) ∈ s.held) :
    ∃ nodes', Inv ⟨s.pools.free q p, s.held.erase (q, p)⟩ nodes' := by
  have hperm := blocks_erase hp
  have hnd := hperm.nodup_iff.mp h.nodup
  have hsub : ∀ x, x ∈ (s.held.erase (q, p)).map Prod.snd → x ∈ s.blocks := fun x hx =>
    hperm.mem_iff.mpr (List.mem_cons_of_mem _ hx)
  have hrest : Inv ⟨s.pools, s.held.erase (q, p)⟩ nodes :=
    ⟨h.pmm, h.family, fun x hx => h.below x (hx.imp_left (hsub x)),
      (List.nodup_cons.mp hnd).2, fun x hx => h.apart x (hsub x hx)⟩
  have hb := mem_blocks hp
  exact ⟨_, hrest.pushed (h.below p (Or.inl hb)) (List.nodup_cons.mp hnd).1 (h.apart p hb) q⟩

/-- The step lemma for a holder's write. -/
theorem write (h : s.Inv nodes) (hp : p ∈ s.blocks) (w : Word) :
    Inv { s with pools.link := Function.update s.pools.link p w } nodes :=
  ⟨h.pmm, h.family.write (h.apart p hp) w, h.below, h.nodup, h.apart⟩

theorem step {s' : Heap} {e : HeapOp} (h : ∃ nodes, s.Inv nodes) (hs : s.step e = some s') :
    ∃ nodes, s'.Inv nodes := by
  obtain ⟨nodes, h⟩ := h
  cases e with
  | alloc q =>
    simp only [Heap.step, Option.some.injEq] at hs
    subst hs
    rcases h.alloc q with ⟨h0, hk, -⟩ | ⟨h0, -, hn⟩
    · rw [if_pos h0, hk]
      exact ⟨nodes, h⟩
    · rwa [if_neg h0]
  | free q p =>
    obtain ⟨hp, hs⟩ := Option.ite_none_right_eq_some.mp hs
    obtain rfl := Option.some.inj hs
    exact h.free hp
  | write p w =>
    obtain ⟨hp, hs⟩ := Option.ite_none_right_eq_some.mp hs
    obtain rfl := Option.some.inj hs
    exact ⟨nodes, h.write hp w⟩

theorem disjoint (h : s.Inv nodes) : s.Disjoint where
  pages p hp := ⟨(h.below p (Or.inl hp)).1, (h.below p (Or.inl hp)).2.1⟩
  distinct := h.nodup
  lists := ⟨nodes, h.family.chain, fun q => (h.family.chain q).nodup, h.family.disjoint, h.apart⟩
  null q := by
    rcases h.alloc q with ⟨h0, -, hq, he⟩ | ⟨h0, hq, -⟩
    · exact iff_of_true h0 ⟨hq, he⟩
    · exact iff_of_false h0 fun hn => hq.elim (fun hl => hl hn.1) fun hl => hl hn.2
  unchanged q h0 := by
    rcases h.alloc q with ⟨-, hk, -⟩ | ⟨hne, -⟩
    · exact hk
    · exact absurd h0 hne

end Inv
end Heap

/-- From empty pools over a sound range on, no block is handed out twice, whatever is allocated,
freed and written. -/
theorem blocks_disjoint {s₀ s : Heap} (hp : s₀.pools.pmm.Sound) (hl : ∀ q, s₀.pools.list q = 0)
    (hh : s₀.held = []) (h : Run Heap.step Free s₀ s) : s.Disjoint := by
  obtain ⟨nodes, hs⟩ : ∃ nodes, s.Inv nodes :=
    h.invariant ⟨_, .start hp hl hh⟩ fun _ _ _ ha _ hb => Heap.Inv.step ha hb
  exact hs.disjoint

/-- Three pages for four pools: a freed block serves its own pool only. -/
theorem blocks_disjoint_exhausted :
    ∃ s, exec Heap.step ⟨⟨fun _ => 0, fun _ => 0, ⟨base, 0x200000, 0x203000⟩⟩, []⟩
      [.alloc .tcb, .alloc .pge, .free .tcb (base + 0x200000), .alloc .ccb, .alloc .pcx,
        .write (base + 0x201000) 5, .alloc .tcb] = some s ∧ s.Disjoint :=
  Run.after_exec (by decide +kernel) fun _ h =>
    blocks_disjoint ⟨rfl, by decide, by decide, by decide, by decide⟩ (fun _ => rfl) rfl h

section Kernel

/-- The pools as the kernel's data hold them, ccb_free and pge_free being called by no one. -/
def Kernel.pools (p : Pmm) (k : Kernel) : Pools where
  link := k.link
  list := Function.update (fun _ => 0) .tcb k.tcbList
  pmm := p.after k.paging.pmmTaken

@[simp] theorem Kernel.pools_list_tcb (p : Pmm) (k : Kernel) : (k.pools p).list .tcb = k.tcbList := by
  simp [Kernel.pools]

theorem Kernel.link_setWord0 (k : Kernel) (t : Ptr) (w : Word) :
    (k.updTcb t fun b => b.setWord0 w).link = Function.update k.link t w := by
  funext q
  by_cases hq : q = t
  · rw [hq, Function.update_self, Kernel.link, Kernel.updTcb_self, Tcb.word0_setWord0]
  · rw [Function.update_of_ne hq, Kernel.link, Kernel.updTcb_of_ne _ _ _ _ hq]
    rfl

/-- The kernel's tcb_free is the first instance of the macro. -/
theorem tcbFree_pools (p : Pmm) (k : Kernel) (t : Ptr) :
    (tcbFree k t).pools p = (k.pools p).free .tcb t := by
  have hl : (tcbFree k t).link = Function.update k.link t k.tcbList := k.link_setWord0 t _
  simp only [Kernel.pools, Pools.free, Pools.push, hl, Function.update_idem, Function.update_self]
  rfl

/-- The kernel's tcb_alloc is the first instance of the macro. -/
theorem tcbAlloc_pools {p : Pmm} (hp : p.Sound) (k : Kernel) :
    ((tcbAlloc (p.source hp) k).1, (tcbAlloc (p.source hp) k).2.pools p) =
      (k.pools p).alloc .tcb := by
  have hpage : (pgeAlloc (p.source hp) k.paging).1 = (pmmAlloc (k.pools p).pmm).1 :=
    p.page_eq_after _
  by_cases hl : k.tcbList = 0
  · by_cases hz : (pmmAlloc (k.pools p).pmm).1 = 0
    · rw [Pools.alloc_of_none (by simpa using hl) hz]
      have hk : tcbAlloc (p.source hp) k =
          (0, { k with paging := (pgeAlloc (p.source hp) k.paging).2 }) := by
        rw [tcbAlloc, if_neg (not_not.mpr hl)]
        exact if_pos (hpage.trans hz)
      rw [hk]
      rfl
    · let q := (pgeAlloc (p.source hp) k.paging).1
      let k₂ := Kernel.updTcb { k with paging := (pgeAlloc (p.source hp) k.paging).2 } q fun t =>
        t.setWord0 k.tcbList
      have hk : tcbAlloc (p.source hp) k = (q, { k₂ with tcbList := k₂.link q }) := by
        rw [tcbAlloc, if_neg (not_not.mpr hl)]
        exact if_neg fun he => hz (hpage.symm.trans he)
      have hlink : k₂.link = Function.update k.link q k.tcbList := Kernel.link_setWord0 _ q _
      have hk₂ : Kernel.pools p { k₂ with tcbList := k₂.link q } =
          ⟨k₂.link, Function.update (fun _ => 0) .tcb (k₂.link q),
            p.after (k.paging.pmmTaken + 1)⟩ := rfl
      rw [Pools.alloc_of_page (by simpa using hl) hz, ← hpage, hk, hk₂, hlink]
      simp only [Pools.pop, Pools.push, Kernel.pools, Function.update_idem, Function.update_self]
      rfl
  · rw [Pools.alloc_of_list (by simpa using hl), tcbAlloc, if_pos hl]
    simp only [Pools.pop, Kernel.pools, Function.update_idem, Function.update_self]
    rfl

/-- As the pge list is empty, pge_alloc passes the page allocator's answers on. -/
theorem pgeAlloc_pools {p : Pmm} (hp : p.Sound) (k : Kernel) :
    ((pgeAlloc (p.source hp) k.paging).1, p.after (pgeAlloc (p.source hp) k.paging).2.pmmTaken) =
      (((k.pools p).alloc .pge).1, ((k.pools p).alloc .pge).2.pmm) := by
  have hpage : (pgeAlloc (p.source hp) k.paging).1 = (pmmAlloc (k.pools p).pmm).1 :=
    p.page_eq_after _
  have hl : (k.pools p).list .pge = 0 := by simp [Kernel.pools]
  by_cases hz : (pmmAlloc (k.pools p).pmm).1 = 0
  · rw [Pools.alloc_of_none hl hz, hpage, hz]
    rfl
  · rw [Pools.alloc_of_page hl hz, hpage]
    simp only [Pools.pop, Pools.push, Function.update_self]
    rfl

end Kernel
end Pinion64
