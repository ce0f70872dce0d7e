import Mathlib.Algebra.BigOperators.Intervals
import Pinion64.Lib.Tally
import Pinion64.Reach

/-! What threads cost in memory. Unless pages are mapped, a page that the allocator delivers becomes
the block of a thread, waits on the free list for the next one, or extends the thread table. -/
namespace Pinion64
open Intrusive Transition Counting

/-- How many pages the allocator delivers from one state to another. -/
def PageSource.delivered (S : PageSource) (i j : ℕ) : ℕ :=
  ∑ x ∈ Finset.Ico i j, if S.page x = 0 then 0 else 1

namespace PageSource

variable {S : PageSource} {i j l : ℕ}

@[simp] theorem delivered_self : S.delivered i i = 0 := by simp [delivered]

theorem delivered_succ : S.delivered i (i + 1) = if S.page i = 0 then 0 else 1 := by
  simp [delivered]

theorem delivered_add (h : i ≤ j) (h' : j ≤ l) :
    S.delivered i j + S.delivered j l = S.delivered i l :=
  Finset.sum_Ico_consecutive _ h h'

end PageSource

namespace Kernel

/-- How many threads there are. -/
def threads (k : Kernel) : ℕ :=
  weight (fun p : Ptr => if p = 0 then 0 else 1) (Finset.range tcbLimit) k.tableEntry

/-- How many pages the thread table takes. -/
def subtables (k : Kernel) : ℕ :=
  weight (fun s : Option (ℕ → Ptr) => if s.isSome then 1 else 0) (Finset.range 128) k.tcbTable

theorem threads_le {k : Kernel} {n : ℕ} (hn : n ≤ tcbLimit)
    (h : ∀ i < tcbLimit, n ≤ i → k.tableEntry i = 0) : k.threads ≤ n := by
  have hless : k.threads = weight (fun p : Ptr => if p = 0 then 0 else 1) (Finset.range n) k.tableEntry :=
    weight_subset (Finset.range_subset_range.mpr hn) fun i hi hout =>
      if_pos (h i (Finset.mem_range.mp hi) (not_lt.mp (mt Finset.mem_range.mpr hout)))
  have hle := weight_le (w := fun p : Ptr => if p = 0 then 0 else 1) (fun p => by split_ifs <;> simp)
    (Finset.range n) k.tableEntry
  rw [Finset.card_range] at hle
  exact hless.trans_le hle

theorem subtables_le (k : Kernel) : k.subtables ≤ 128 := by
  have h := weight_le (w := fun s : Option (ℕ → Ptr) => if s.isSome then 1 else 0)
    (fun s => by split_ifs <;> simp) (Finset.range 128) k.tcbTable
  rwa [Finset.card_range] at h

theorem threads_congr {k k' : Kernel} (h : k'.tableEntry = k.tableEntry) : k'.threads = k.threads :=
  congrArg (weight _ _) h

theorem threads_enter {k k' : Kernel} {i : ℕ} {t : Ptr} (hi : i < tcbLimit)
    (hz : k.tableEntry i = 0) (ht : t ≠ 0) (h : k'.tableEntry = Function.update k.tableEntry i t) :
    k'.threads = k.threads + 1 := by
  have hw := weight_update (fun p : Ptr => if p = 0 then 0 else 1) k.tableEntry
    (Finset.mem_range.mpr hi) t
  rwa [if_pos hz, if_neg ht, ← h, add_zero] at hw

theorem threads_leave {k k' : Kernel} {i : ℕ} (hi : i < tcbLimit) (hne : k.tableEntry i ≠ 0)
    (h : k'.tableEntry = Function.update k.tableEntry i 0) : k'.threads + 1 = k.threads := by
  have hw := weight_update (fun p : Ptr => if p = 0 then 0 else 1) k.tableEntry
    (Finset.mem_range.mpr hi) 0
  rwa [if_neg hne, if_pos rfl, ← h, add_zero] at hw

theorem subtables_setTableEntry (k : Kernel) (i : ℕ) (t : Ptr) :
    (k.setTableEntry i t).subtables = k.subtables := by
  have htab : (k.setTableEntry i t).tcbTable = Function.update k.tcbTable (i / 512)
      ((k.tcbTable (i / 512)).map fun s => Function.update s (i % 512) t) := rfl
  refine weight_congr fun j _ => ?_
  rw [htab]
  by_cases hj : j = i / 512
  · rw [hj, Function.update_self, Option.isSome_map]
  · rw [Function.update_of_ne hj]

end Kernel

/-- The free list goes from `free` to `free'`, and every page that has been delivered is found
again. -/
structure Accounted (S : PageSource) (k : Kernel) (free : List Ptr) (k' : Kernel)
    (free' : List Ptr) : Prop where
  chain : Chain k'.link 0 k'.tcbList free'
  taken : k.paging.pmmTaken ≤ k'.paging.pmmTaken
  pages : S.delivered k.paging.pmmTaken k'.paging.pmmTaken + (k.threads + free.length) +
    k.subtables = k'.threads + free'.length + k'.subtables

namespace Accounted

variable {S : PageSource} {k k' k'' : Kernel} {free free' free'' : List Ptr}

theorem refl (h : Chain k.link 0 k.tcbList free) : Accounted S k free k free :=
  ⟨h, le_rfl, by rw [PageSource.delivered_self, zero_add]⟩

theorem trans (h : Accounted S k free k' free') (h' : Accounted S k' free' k'' free'') :
    Accounted S k free k'' free'' := by
  refine ⟨h'.chain, h.taken.trans h'.taken, ?_⟩
  have h1 := h.pages
  have h2 := h'.pages
  rw [← PageSource.delivered_add h.taken h'.taken]
  omega

end Accounted

section Create
variable {P : Platform} {k : Kernel} {run free : List Ptr}

/-- A page for a subtable is a page of the table. -/
theorem tcbSubtable_pages (S : PageSource) (k : Kernel) {i : ℕ} (hi : i < tcbLimit) :
    k.paging.pmmTaken ≤ (tcbSubtable S k i).2.paging.pmmTaken ∧
      S.delivered k.paging.pmmTaken (tcbSubtable S k i).2.paging.pmmTaken + k.subtables =
        (tcbSubtable S k i).2.subtables := by
  have hslot : i / 512 ∈ Finset.range 128 := by
    rw [Finset.mem_range]
    simp only [tcbLimit] at hi
    omega
  unfold tcbSubtable
  cases hs : k.tcbTable (i / 512) with
  | some s => exact ⟨le_rfl, by rw [PageSource.delivered_self, zero_add]⟩
  | none =>
    by_cases hz : S.page k.paging.pmmTaken = 0
    · simp only [pgeAlloc, hz, if_true]
      refine ⟨Nat.le_succ _, ?_⟩
      rw [PageSource.delivered_succ, if_pos hz, zero_add]
      rfl
    · simp only [pgeAlloc, hz, if_false]
      refine ⟨Nat.le_succ _, ?_⟩
      have hw := weight_update (fun s : Option (ℕ → Ptr) => if s.isSome then 1 else 0) k.tcbTable
        hslot (some fun _ => 0)
      simp only [hs, Option.isSome_none, Option.isSome_some, Bool.false_eq_true, if_true, if_false,
        add_zero] at hw
      rw [PageSource.delivered_succ, if_neg hz, add_comm, Kernel.subtables, Kernel.subtables]
      exact hw.symm

/-- The search for a slot takes pages for the table only. -/
theorem tcbNewFrom_pages (S : PageSource) (t : Ptr) {n : ℕ} (hn : n < tcbLimit) (k : Kernel) :
    k.paging.pmmTaken ≤ (tcbNewFrom S t n k).2.paging.pmmTaken ∧
      S.delivered k.paging.pmmTaken (tcbNewFrom S t n k).2.paging.pmmTaken + k.subtables =
        (tcbNewFrom S t n k).2.subtables := by
  induction n generalizing k with
  | zero =>
    refine ⟨le_rfl, ?_⟩
    change S.delivered k.paging.pmmTaken k.paging.pmmTaken + k.subtables = k.subtables
    rw [PageSource.delivered_self, zero_add]
  | succ n ih =>
    obtain ⟨hle, hpages⟩ := tcbSubtable_pages S k (i := tcbLimit - (n+1)) (by omega)
    simp only [tcbNewFrom]
    generalize tcbSubtable S k (tcbLimit - (n+1)) = r at hle hpages ⊢
    split_ifs
    · exact ⟨hle, hpages⟩
    · exact ⟨hle, hpages.trans (r.2.subtables_setTableEntry _ t).symm⟩
    · obtain ⟨hle', hpages'⟩ := ih (by omega) r.2
      refine ⟨hle.trans hle', ?_⟩
      rw [← PageSource.delivered_add hle hle']
      omega

/-- With an empty list tcb_alloc turns to the page allocator. -/
theorem tcbAlloc_empty (S : PageSource) {k : Kernel} (hl : k.tcbList = 0) :
    (tcbAlloc S k).1 = S.page k.paging.pmmTaken ∧
      (tcbAlloc S k).2.paging.pmmTaken = k.paging.pmmTaken + 1 ∧
      (tcbAlloc S k).2.tcbTable = k.tcbTable := by
  let k₁ := { k with paging := (pgeAlloc S k.paging).2 }
  let q := S.page k.paging.pmmTaken
  let k₂ := k₁.updTcb q fun b => b.setWord0 k.tcbList
  have halloc : tcbAlloc S k = if q = 0 then (0, k₁) else (q, { k₂ with tcbList := k₂.link q }) := by
    rw [tcbAlloc, if_neg (not_not.mpr hl)]
    rfl
  rw [halloc]
  split_ifs with hz
  · exact ⟨hz.symm, rfl, rfl⟩
  · exact ⟨rfl, rfl, rfl⟩

theorem tcbAlloc_listed (S : PageSource) {k : Kernel} (hl : k.tcbList ≠ 0) :
    (tcbAlloc S k).2.paging = k.paging ∧ (tcbAlloc S k).2.tcbTable = k.tcbTable := by
  rw [tcbAlloc, if_pos hl]
  exact ⟨rfl, rfl⟩

/-- tcb_alloc takes a page only when no freed block is left. -/
theorem tcbAlloc_pages (h : Coherent P k run free) {rest : List Ptr}
    (ht : Coherent.Taken P k (tcbAlloc P.pages k).2 free rest (tcbAlloc P.pages k).1) :
    P.pages.delivered k.paging.pmmTaken (tcbAlloc P.pages k).2.paging.pmmTaken + free.length =
        rest.length + 1 ∧ (tcbAlloc P.pages k).2.tcbTable = k.tcbTable := by
  have hc := h.chain
  rcases ht.split with hfree | ⟨hfree, hrest⟩
  · rw [hfree, Chain.cons_iff] at hc
    obtain ⟨hpaging, htab⟩ := tcbAlloc_listed P.pages (k := k) (hc.1 ▸ hc.2.1)
    refine ⟨?_, htab⟩
    rw [hpaging, PageSource.delivered_self, zero_add, hfree, List.length_cons]
  · rw [hfree, Chain.nil_iff] at hc
    obtain ⟨hpage, htaken, htab⟩ := tcbAlloc_empty P.pages hc
    refine ⟨?_, htab⟩
    rw [htaken, PageSource.delivered_succ, if_neg (hpage ▸ ht.ne_zero), hfree, hrest]
    rfl

/-- tcb_new takes no page that is not found again, and a page for a block only when no freed one is
left. -/
theorem Coherent.create_accounted (h : Coherent P k run free) :
    ∃ free', Accounted P.pages k free (apilogicThreadCreate P.pages k).2 free' ∧
      ((apilogicThreadCreate P.pages k).2.threads + free'.length = k.threads + free.length ∨
        free = [] ∧
          (apilogicThreadCreate P.pages k).2.threads + free'.length = k.threads + 1) := by
  rcases h.tcbAlloc_taken with ⟨hz, hk⟩ | ⟨rest, ht⟩
  · have hc : apilogicThreadCreate P.pages k =
        (0, { k with paging := (pgeAlloc P.pages k.paging).2 }) := by
      simp only [apilogicThreadCreate, tcbNew, hz, if_true, hk]
    have hl : k.tcbList = 0 := by
      by_contra hl
      rw [tcbAlloc, if_pos hl] at hz
      exact hl hz
    have hpage := (tcbAlloc_empty P.pages hl).1.symm.trans hz
    rw [hc]
    refine ⟨free, ⟨h.chain, Nat.le_succ _, ?_⟩, Or.inl rfl⟩
    change P.pages.delivered k.paging.pmmTaken (k.paging.pmmTaken + 1) +
      (k.threads + free.length) + k.subtables = k.threads + free.length + k.subtables
    rw [PageSource.delivered_succ, if_pos hpage, zero_add]
  · obtain ⟨halloc, htab⟩ := tcbAlloc_pages h ht
    have hsplit := ht.split
    generalize hr : tcbAlloc P.pages k = r at ht halloc htab
    have hnew : tcbNew P.pages k =
        tcbNewFrom P.pages r.1 (tcbLimit - 1) { r.2 with tcbTableLock := true } := by
      rw [tcbNew, hr]
      exact if_neg ht.ne_zero
    have htl : Coherent.Taken P k { r.2 with tcbTableLock := true } free rest r.1 :=
      ⟨ht.ne_zero, ht.step.lock true, ht.table, ht.chain, ht.page, ht.split, ht.dead⟩
    obtain ⟨hle, hpages⟩ := tcbNewFrom_pages P.pages r.1 (n := tcbLimit - 1) (by decide)
      { r.2 with tcbTableLock := true }
    rw [← hnew] at hle hpages
    have hle' : k.paging.pmmTaken ≤ (tcbNew P.pages k).2.paging.pmmTaken := ht.step.taken.trans hle
    have hdelivered := PageSource.delivered_add (S := P.pages) ht.step.taken hle
    have hsub : r.2.subtables = k.subtables := congrArg (weight _ _) htab
    have hpages : P.pages.delivered r.2.paging.pmmTaken (tcbNew P.pages k).2.paging.pmmTaken +
      r.2.subtables = (tcbNew P.pages k).2.subtables := hpages
    have hrest : free.length = rest.length + 1 ∨ free = [] ∧ rest = [] := by
      rcases hsplit with hf | hf
      · exact Or.inl (by rw [hf, List.length_cons])
      · exact Or.inr hf
    rcases tcbNewFrom_cases P.pages r.1 (n := tcbLimit - 1) (by decide)
      { r.2 with tcbTableLock := true } with ⟨h0, hf⟩ | ⟨h1, i, he⟩
    · rw [← hnew] at h0 hf
      have hc : apilogicThreadCreate P.pages k = (0, (tcbNew P.pages k).2) := by
        simp only [apilogicThreadCreate, h0, if_true]
      have hthreads : (tcbNew P.pages k).2.threads = k.threads :=
        Kernel.threads_congr (hf.table.trans htl.table)
      rw [hc]
      refine ⟨r.1 :: rest, ⟨(h.freed htl hf).chain, hle', ?_⟩, ?_⟩
      · rw [hthreads, List.length_cons]
        simp only
        omega
      · rw [hthreads, List.length_cons]
        rcases hrest with hlen | ⟨rfl, rfl⟩
        · exact Or.inl (by omega)
        · exact Or.inr ⟨rfl, rfl⟩
    · rw [← hnew] at h1 he
      have hc : (apilogicThreadCreate P.pages k).2 =
          (tcbNew P.pages k).2.setState r.1 tcbStateSuspended := by
        simp only [apilogicThreadCreate, h1, if_neg ht.ne_zero]
      have hthreads : (tcbNew P.pages k).2.threads = k.threads + 1 :=
        Kernel.threads_enter he.lt (htl.table ▸ he.empty) ht.ne_zero (by rw [he.table, htl.table])
      have hchain := (h.entered htl he).chain.congr fun p hp =>
        (tcbNew P.pages k).2.setState_link r.1 p tcbStateSuspended fun heq =>
          htl.not_mem_rest h (heq ▸ hp)
      have hset : ((tcbNew P.pages k).2.setState r.1 tcbStateSuspended).threads = k.threads + 1 :=
        hthreads
      rw [hc]
      refine ⟨rest, ⟨hchain, hle', ?_⟩, ?_⟩
      · change P.pages.delivered k.paging.pmmTaken (tcbNew P.pages k).2.paging.pmmTaken +
          (k.threads + free.length) + k.subtables = _ + rest.length + (tcbNew P.pages k).2.subtables
        rw [hset]
        omega
      · rw [hset]
        rcases hrest with hlen | ⟨rfl, rfl⟩
        · exact Or.inl (by omega)
        · exact Or.inr ⟨rfl, Nat.add_zero _⟩

/-- A reaped block waits on the free list. -/
theorem Coherent.reap_accounted {t : Ptr} (h : Coherent P k run free) (ht : k.Live t)
    (hs : k.state t = tcbStateSuspended) (ha : k.activeTcb ≠ t) :
    Accounted P.pages k free (tcbDel k t) (t :: free) ∧
      (tcbDel k t).threads + (t :: free).length = k.threads + free.length := by
  have hchain := (h.reap ht hs ha).1.chain
  obtain ⟨hne, i, hi, hit⟩ := ht
  have hid : (k.tcb t).id.toNat = i := by
    have hb := h.id i hi (hit ▸ hne)
    rw [hit] at hb
    rw [hb, BitVec.toNat_ofNat]
    simp only [tcbLimit] at hi
    omega
  have hr := tcbDel_removed hne (by rw [hs]; decide) hi hid hit
  have hthreads := Kernel.threads_leave hi (hit ▸ hne) hr.table
  have hdel : (tcbDel k t).paging = k.paging ∧ (tcbDel k t).subtables = k.subtables := by
    unfold tcbDel
    simp only
    split_ifs
    · exact ⟨rfl, rfl⟩
    · exact ⟨rfl, rfl⟩
    · exact ⟨rfl, rfl⟩
    · exact ⟨rfl, k.subtables_setTableEntry _ 0⟩
  refine ⟨⟨hchain, hr.step.taken, ?_⟩, ?_⟩
  · rw [hdel.1, hdel.2, PageSource.delivered_self, List.length_cons]
    omega
  · rw [List.length_cons]
    omega

end Create

section Aside
variable {P : Platform} {k k' : Kernel} {run free : List Ptr} {e : Effect}

/-- The steps that leave the table, the free list and the page allocator alone. -/
def Effect.Aside : Effect → Prop
  | create => False
  | reap _ => False
  | paging _ => False
  | _ => True

theorem Effect.aside (h : Coherent P k run free) (he : Enabled P k e) (hk : e.apply P k = some k')
    (ha : e.Aside) : k'.tcbTable = k.tcbTable ∧ k'.tcbList = k.tcbList ∧
      k'.paging.pmmTaken = k.paging.pmmTaken ∧ ∀ p ∈ free, k'.link p = k.link p := by
  have hs : Sound P k := ⟨run, free, h⟩
  have hne : ∀ {t p}, k.Live t ∨ t = P.idleTcb → p ∈ free → p ≠ t := by
    rintro t p ht hp rfl
    exact h.not_free ht hp
  have hset : ∀ (k₁ : Kernel) {t p} s, p ≠ t → k₁.link p = k.link p →
      (k₁.setState t s).link p = k.link p := fun k₁ t p s hpt hl => (k₁.setState_link t p s hpt).trans hl
  have hupd : ∀ (k₁ : Kernel) t p f, (∀ b : Tcb, (f b).word0 = b.word0) →
      (k₁.updTcb t f).link p = k₁.link p := fun k₁ t p f hf => k₁.updTcb_proj t p f Tcb.word0 hf
  have hfire : ∀ t j p, (k.fireTap t j).link p = k.link p := fun t j p => hupd k t p _ fun _ => rfl
  have hrax : ∀ (k₁ : Kernel) t p w, (k₁.setRax t w).link p = k₁.link p := fun k₁ t p w =>
    hupd k₁ t p _ fun _ => rfl
  cases e with
  | ready t =>
    obtain rfl := Option.some.inj hk
    rw [schedulerPushTcb_eq]
    exact ⟨rfl, rfl, rfl, fun p hp => hset _ _ (hne he.1 hp) rfl⟩
  | dispatch t =>
    obtain ⟨h0, ht, hhead⟩ := he
    obtain ⟨pcx, pcxId, hload⟩ := ccbLoadTcb_eq
      (k := (schedulerPullTcb k).2.setState t tcbStateRunning) t ((schedulerPullTcb_active k).trans h0)
    obtain ⟨m, rfl, -⟩ := h.fifo.1.exists_cons (hhead ▸ ht)
    have hrun := h.mem_run (p := t) (by rw [hhead]; exact List.mem_cons_self ..)
    have hpull : ∃ hd tl, (schedulerPullTcb k).2 = k.relink k.next hd tl := by
      simp only [schedulerPullTcb]
      split_ifs
      · exact ⟨_, _, rfl⟩
      · exact ⟨_, _, rfl⟩
      · exact ⟨_, _, rfl⟩
      · exact ⟨_, _, rfl⟩
    obtain ⟨hd, tl, hpull⟩ := hpull
    obtain rfl := Option.some.inj hk
    rw [hload, hpull]
    exact ⟨rfl, rfl, rfl, fun p hp => hset (k.relink k.next hd tl) _ (hne hrun hp) rfl⟩
  | inject =>
    obtain ⟨pcx, pcxId, hload⟩ := ccbLoadTcb_eq P.idleTcb he.1
    obtain rfl := Option.some.inj hk
    rw [hload]
    exact ⟨rfl, rfl, rfl, fun _ _ => rfl⟩
  | unload =>
    obtain rfl := Option.some.inj hk
    unfold ccbUnloadTcb
    split_ifs with h0
    · exact ⟨rfl, rfl, rfl, fun _ _ => rfl⟩
    · refine ⟨rfl, rfl, rfl, fun p hp => congrArg Tcb.word0 (Kernel.updTcb_of_ne _ _ _ _ ?_)⟩
      exact hne (h.active.resolve_left h0).1 hp
  | block t =>
    obtain ⟨n, hd, tl, hrem, -⟩ := hs.rem he.1 he.2
    rw [Effect.apply, hrem] at hk
    obtain rfl := Option.some.inj hk
    exact ⟨rfl, rfl, rfl, fun p hp => hset (k.relink n hd tl) _ (hne (Or.inl he.1) hp) rfl⟩
  | shift t s =>
    obtain rfl := Option.some.inj hk
    exact ⟨rfl, rfl, rfl, fun p hp => hset k s (hne (Or.inl he.1) hp) rfl⟩
  | report q t =>
    obtain rfl := Option.some.inj hk
    rw [enqueue_eq]
    exact ⟨rfl, rfl, rfl, fun _ _ => rfl⟩
  | fetch q =>
    obtain rfl := Option.some.inj hk
    simp only [getQueued]
    split_ifs
    · exact ⟨rfl, rfl, rfl, fun _ _ => rfl⟩
    · exact ⟨rfl, rfl, rfl, fun _ _ => rfl⟩
  | flag vec t j =>
    obtain rfl := Option.some.inj hk
    exact ⟨rfl, rfl, rfl, fun p _ => hfire t j p⟩
  | wake vec t j =>
    have hlive := he.1.live h (Or.inl he.2.1)
    obtain rfl := Option.some.inj hk
    rw [schedulerPushTcb_eq]
    exact ⟨rfl, rfl, rfl, fun p hp => (hrax ..).trans (hset _ _ (hne (Or.inl hlive) hp) (hfire t j p))⟩
  | unwait vec t j =>
    have hlive := he.1.live h (Or.inr he.2)
    obtain rfl := Option.some.inj hk
    exact ⟨rfl, rfl, rfl, fun p hp => (hrax ..).trans (hset _ _ (hne (Or.inl hlive) hp) (hfire t j p))⟩
  | setTap t i v =>
    obtain rfl := Option.some.inj hk
    exact ⟨rfl, rfl, rfl, fun p _ => hupd k t p _ fun _ => rfl⟩
  | setSlot vec i t =>
    obtain rfl := Option.some.inj hk
    exact ⟨rfl, rfl, rfl, fun _ _ => rfl⟩
  | regs t r iv sv er =>
    obtain rfl := Option.some.inj hk
    exact ⟨rfl, rfl, rfl, fun p _ => hupd k t p _ fun _ => rfl⟩
  | create => exact ha.elim
  | reap t => exact ha.elim
  | paging p => exact ha.elim

theorem Effect.aside_accounted (h : Coherent P k run free) (he : Enabled P k e)
    (hk : e.apply P k = some k') (ha : e.Aside) :
    Accounted P.pages k free k' free ∧ k'.threads = k.threads := by
  obtain ⟨htab, hlist, htaken, hlink⟩ := Effect.aside h he hk ha
  have hthreads : k'.threads = k.threads := Kernel.threads_congr (by
    funext i
    rw [Kernel.tableEntry, Kernel.tableEntry, htab])
  have hsub : k'.subtables = k.subtables := congrArg (weight _ _) htab
  refine ⟨⟨?_, htaken.ge, ?_⟩, hthreads⟩
  · rw [hlist]
    exact h.chain.congr hlink
  · rw [htaken, PageSource.delivered_self, zero_add, hthreads, hsub]

end Aside

section Runs
variable {P : Platform} {s s' : Sys} {e : Event} {n : ℕ}

/-- The event that enters pages in the page tables. -/
def Event.maps : Event → Bool
  | call (.pageSet ..) => true
  | _ => false

theorem Sys.May.paging {p : Paging} (h : s.May e (.paging p)) : e.maps = true := by
  cases e with
  | call c =>
    obtain ⟨v, q, f, n, rfl⟩ := h
    rfl
  | _ => exact h.elim

/-- A step takes a page for a block only when no freed one is left. -/
theorem accounted_step (hs : SysSound P s) (hst : s.step P e = some s') (he : e.maps = false)
    {free : List Ptr} (hfree : Chain s.kernel.link 0 s.kernel.tcbList free) :
    ∃ free', Accounted P.pages s.kernel free s'.kernel free' ∧
      (s'.kernel.threads + free'.length = s.kernel.threads + free.length ∨
        e = .call .threadCreate ∧ s'.kernel.threads + free'.length = s.kernel.threads + 1) := by
  by_cases hc : e = .call .threadCreate
  · subst hc
    obtain ⟨-, -, r, hbody⟩ := hs.step_call hst
    obtain ⟨-, hk⟩ := Prod.mk.inj (Option.some.inj hbody)
    obtain ⟨run, free₁, h⟩ := hs.sound
    obtain rfl := h.chain.unique hfree
    obtain ⟨free', hacc, hcount⟩ := h.create_accounted
    rw [← hk]
    exact ⟨free', hacc, hcount.imp_right fun hnew => ⟨rfl, hnew.2⟩⟩
  · have hkeep := (hs.step hst).2.keep
      (I := fun k => ∃ free', Accounted P.pages s.kernel free k free' ∧
        k.threads + free'.length = s.kernel.threads + free.length)
      ⟨free, .refl hfree, rfl⟩ hs.sound fun k f k' hI hk hen hm hap => by
        obtain ⟨free₁, hacc, hcount⟩ := hI
        obtain ⟨run, free₂, h⟩ := hk
        obtain rfl := h.chain.unique hacc.chain
        by_cases ha : f.Aside
        · obtain ⟨hacc', hthreads⟩ := Effect.aside_accounted h hen hap ha
          exact ⟨free₂, hacc.trans hacc', by rw [hthreads, hcount]⟩
        · cases f with
          | create => exact absurd hm.create hc
          | paging p => exact absurd (hm.paging.symm.trans he) Bool.true_eq_false.mp
          | reap t =>
            obtain rfl := Option.some.inj hap
            obtain ⟨hacc', hcount'⟩ := h.reap_accounted hen.1 hen.2.1 hen.2.2
            exact ⟨t :: free₂, hacc.trans hacc', hcount'.trans hcount⟩
          | _ => exact absurd trivial ha
    obtain ⟨free', hacc, hcount⟩ := hkeep
    exact ⟨free', hacc, Or.inl hcount⟩

/-- Unless pages are mapped, no page that is delivered is lost: however many threads come and go,
it is a block of a thread, a block on the free list or a part of the thread table. -/
theorem pages_accounted (b : Boot P) (h : Reach b s)
    (hr : Run (Sys.step P) (fun _ e => e.maps = false) s s') :
    ∃ free free', Chain s.kernel.link 0 s.kernel.tcbList free ∧
      Chain s'.kernel.link 0 s'.kernel.tcbList free' ∧
      P.pages.delivered s.kernel.paging.pmmTaken s'.kernel.paging.pmmTaken +
          (s.kernel.threads + free.length) + s.kernel.subtables =
        s'.kernel.threads + free'.length + s'.kernel.subtables := by
  obtain ⟨run, free, hc⟩ := h.sound.sound
  have hinv : SysSound P s' ∧ ∃ free', Accounted P.pages s.kernel free s'.kernel free' :=
    hr.invariant (I := fun u => SysSound P u ∧ ∃ free', Accounted P.pages s.kernel free u.kernel free')
      ⟨h.sound, free, .refl hc.chain⟩ fun u e u' hu he hst => by
        obtain ⟨hsound, free₁, hacc⟩ := hu
        obtain ⟨free₂, hacc', -⟩ := accounted_step hsound hst he hacc.chain
        exact ⟨(hsound.step hst).1, free₂, hacc.trans hacc'⟩
  obtain ⟨-, free', hacc⟩ := hinv
  exact ⟨free, free', hc.chain, hacc.chain, hacc.pages⟩

/-- A thread is created, reaped and created again. -/
theorem pages_accounted_again : ∃ (s : Sys) (free free' : List Ptr), tcbGet s.kernel 2 ≠ 0 ∧
    lowPlatform.pages.delivered lowBoot.sys.kernel.paging.pmmTaken s.kernel.paging.pmmTaken +
        (lowBoot.sys.kernel.threads + free.length) + lowBoot.sys.kernel.subtables =
      s.kernel.threads + free'.length + s.kernel.subtables := by
  obtain ⟨s, hr, hs⟩ := Run.exists_of_guarded (Sys.step lowPlatform) (fun _ e => e.maps = false)
    lowBoot.sys [.call .threadCreate, .yield, .ret, .call (.threadReap 2), .call .threadCreate]
    (fun s => decide (tcbGet s.kernel 2 ≠ 0)) (by decide +kernel)
  obtain ⟨free, free', -, -, h⟩ := pages_accounted lowBoot .refl hr
  exact ⟨s, free, free', of_decide_eq_true hs, h⟩

/-- Where threads are only created while there are fewer than `n`, the kernel takes no more than `n`
pages for their blocks and 128 for the table, for ever. -/
theorem footprint_bounded (b : Boot P) (h : Reach b s)
    (hr : Run (Sys.step P)
      (fun u e => e.maps = false ∧ (e = .call .threadCreate → u.kernel.threads < n)) s s') :
    P.pages.delivered s.kernel.paging.pmmTaken s'.kernel.paging.pmmTaken ≤ n + 128 := by
  obtain ⟨run, free, hc⟩ := h.sound.sound
  have hinv : SysSound P s' ∧ ∃ free', Accounted P.pages s.kernel free s'.kernel free' ∧
      s'.kernel.threads + free'.length ≤ max n (s.kernel.threads + free.length) :=
    hr.invariant (I := fun u => SysSound P u ∧ ∃ free', Accounted P.pages s.kernel free u.kernel free' ∧
      u.kernel.threads + free'.length ≤ max n (s.kernel.threads + free.length))
      ⟨h.sound, free, .refl hc.chain, le_max_right ..⟩ fun u e u' hu hok hst => by
        obtain ⟨hsound, free₁, hacc, hle⟩ := hu
        obtain ⟨free₂, hacc', hcount⟩ := accounted_step hsound hst hok.1 hacc.chain
        refine ⟨(hsound.step hst).1, free₂, hacc.trans hacc', ?_⟩
        rcases hcount with hsame | ⟨hcreate, hnew⟩
        · exact hsame.trans_le hle
        · have hlt := hok.2 hcreate
          exact le_trans (by omega) (le_max_left ..)
  obtain ⟨-, free', hacc, hle⟩ := hinv
  have hpages := hacc.pages
  have hsub := s'.kernel.subtables_le
  omega

/-- A test of the table: only the first entries are in use. -/
def Kernel.usesFirst (n : ℕ) (k : Kernel) : Bool :=
  (List.range 128).all (fun j => j = 0 ∨ (k.tcbTable j).isNone) &&
    (List.range 512).all fun i => i < n ∨ k.tableEntry i = 0

theorem Kernel.threads_le_of_usesFirst {k : Kernel} (h : k.usesFirst n = true) (hn : n ≤ tcbLimit) :
    k.threads ≤ n := by
  simp only [usesFirst, Bool.and_eq_true, List.all_eq_true, List.mem_range, decide_eq_true_eq,
    Option.isNone_iff_eq_none] at h
  obtain ⟨hrest, hfirst⟩ := h
  refine threads_le hn fun i hi hle => ?_
  by_cases hlow : i < 512
  · exact (hfirst i hlow).resolve_left (by omega)
  · have hi' : i < 65536 := hi
    have hnone := (hrest (i / 512) (by omega)).resolve_left (by omega)
    rw [tableEntry, hnone]

/-- A second thread can be created and reaped again and again. -/
theorem footprint_bounded_again : ∃ s : Sys, tcbGet s.kernel 2 ≠ 0 ∧
    lowPlatform.pages.delivered lowBoot.sys.kernel.paging.pmmTaken s.kernel.paging.pmmTaken ≤
      4 + 128 := by
  obtain ⟨s, hr, hs⟩ := Run.exists_of_guarded (Sys.step lowPlatform)
    (fun u e => e.maps = false ∧ u.kernel.usesFirst 3 = true) lowBoot.sys
    [.call .threadCreate, .yield, .ret, .call (.threadReap 2), .call .threadCreate, .yield, .ret,
      .call (.threadReap 2), .call .threadCreate]
    (fun s => decide (tcbGet s.kernel 2 ≠ 0)) (by decide +kernel)
  refine ⟨s, of_decide_eq_true hs, footprint_bounded lowBoot .refl (hr.mono fun u e hu => ⟨hu.1, ?_⟩)⟩
  exact fun _ => Nat.lt_succ_of_le (Kernel.threads_le_of_usesFirst hu.2 (by decide))

end Runs
end Pinion64
