import Pinion64.KernelSegments

/-! The tables of the kernel image: for which dynamic sections the loader reads nothing but the object
and what has been loaded of it, and comes to an end. -/
namespace Pinion64
open Bytes

variable {v : PageView} {p : Pmm} {apientry : ApiFunction → Word} {o : Obje} {kernelBase : Ptr} {m m' : Memory 64}
variable {a b r x : Ptr} {d : Dynamic} {s t s' : Loader} {i j n fuel : ℕ}

section Scan

/-- The entries before the first DT_NULL, all of them in the object. -/
def DynListed (o : Obje) (m : Memory 64) : Ptr → List Dyn → Prop
  | a, [] => o.Holds a 8 ∧ (Dyn.read m a).dTag = 0
  | a, e :: es => o.Holds a 8 ∧ o.Holds (a + 8) 8 ∧ Dyn.read m a = e ∧ e.dTag ≠ 0 ∧
      DynListed o m (a + 16) es

instance decDynListed (o : Obje) (m : Memory 64) :
    ∀ (a : Ptr) (es : List Dyn), Decidable (DynListed o m a es)
  | _, [] => inferInstanceAs (Decidable (_ ∧ _))
  | a, _ :: es => haveI := decDynListed o m (a + 16) es
    inferInstanceAs (Decidable (_ ∧ _ ∧ _ ∧ _ ∧ _))

theorem DynListed.unique {es es' : List Dyn} (h : DynListed o m a es) (h' : DynListed o m a es') :
    es = es' := by
  induction es generalizing a es' with
  | nil =>
    cases es' with
    | nil => rfl
    | cons e es' =>
      obtain ⟨-, -, he, hne, -⟩ := h'
      exact absurd (he ▸ h.2) hne
  | cons e es ih =>
    obtain ⟨-, -, he, hne, hs⟩ := h
    cases es' with
    | nil => exact absurd (he ▸ h'.2) hne
    | cons e' es' =>
      obtain ⟨-, -, he', -, hs'⟩ := h'
      rw [← he, ← he', ih hs hs']

theorem scanDynamic_succ (c : Dynamic × Word) : scanDynamic o kernelBase m (fuel + 1) a c =
    if o.Holds a 8 then
      if (Dyn.read m a).dTag = 0 then some c
      else if o.Holds (a + 8) 8 then
        scanDynamic o kernelBase m fuel (a + 16) (collect kernelBase c (Dyn.read m a))
      else none
    else none := by
  simp only [scanDynamic, Option.bind_eq_bind, guard_then]

theorem Loader.Keeps.dTag (hk : s.Keeps o m) (h : o.Holds a 8) :
    (Dyn.read s.mem a).dTag = (Dyn.read m a).dTag := hk.read h (by decide)

theorem Loader.Keeps.dyn (hk : s.Keeps o m) (h : o.Holds a 8) (h' : o.Holds (a + 8) 8) :
    Dyn.read s.mem a = Dyn.read m a := by
  unfold Dyn.read read64
  rw [hk.read h (by decide), hk.read h' (by decide)]

theorem scanDynamic_listed (hk : s.Keeps o m) {es : List Dyn} (h : DynListed o m a es)
    (hf : es.length < fuel) (c : Dynamic × Word) :
    scanDynamic o kernelBase s.mem fuel a c = some (es.foldl (collect kernelBase) c) := by
  induction es generalizing a c fuel with
  | nil =>
    obtain ⟨fuel, rfl⟩ : ∃ k, fuel = k + 1 := ⟨fuel - 1, by simp at hf; omega⟩
    obtain ⟨h8, hz⟩ := h
    rw [scanDynamic_succ, if_pos h8, hk.dTag h8, if_pos hz]
    rfl
  | cons e es ih =>
    obtain ⟨fuel, rfl⟩ : ∃ k, fuel = k + 1 := ⟨fuel - 1, by simp at hf; omega⟩
    obtain ⟨h8, h16, he, hne, hs⟩ := h
    rw [scanDynamic_succ, if_pos h8, hk.dyn h8 h16, he, if_neg hne, if_pos h16]
    exact ih hs (by simpa using hf) _

theorem listed_of_scanDynamic (hk : s.Keeps o m) {c c' : Dynamic × Word}
    (h : scanDynamic o kernelBase s.mem fuel a c = some c') :
    ∃ es, DynListed o m a es ∧ c' = es.foldl (collect kernelBase) c := by
  induction fuel generalizing a c with
  | zero => simp [scanDynamic] at h
  | succ fuel ih =>
    rw [scanDynamic_succ] at h
    by_cases h8 : o.Holds a 8
    · rw [if_pos h8, hk.dTag h8] at h
      by_cases hz : (Dyn.read m a).dTag = 0
      · rw [if_pos hz] at h
        exact ⟨[], ⟨h8, hz⟩, (Option.some.inj h).symm⟩
      · rw [if_neg hz] at h
        by_cases h16 : o.Holds (a + 8) 8
        · rw [if_pos h16, hk.dyn h8 h16] at h
          obtain ⟨es, hes, hc⟩ := ih h
          exact ⟨Dyn.read m a :: es, ⟨h8, h16, rfl, hz, hes⟩, hc⟩
        · rw [if_neg h16] at h
          cases h
    · rw [if_neg h8] at h
      cases h

end Scan

section Strings

/-- What strcmp reads decides how much it reads and what it says. -/
theorem strcmp_congr {bs : List (BitVec 8)} (h : ∀ k < strcmpReads m a bs,
      m' (a + BitVec.ofNat 64 k) = m (a + BitVec.ofNat 64 k)) :
    strcmpReads m' a bs = strcmpReads m a bs ∧ strcmp m' a bs = strcmp m a bs := by
  induction bs generalizing a with
  | nil => exact ⟨rfl, rfl⟩
  | cons c bs ih =>
    have hpos : 0 < strcmpReads m a (c :: bs) := by
      unfold strcmpReads
      split_ifs <;> omega
    have h0 := h 0 hpos
    rw [BitVec.add_zero] at h0
    by_cases hz : m a = 0
    · simp [strcmpReads, strcmp, h0, hz]
    · by_cases hc : m a = c
      · have hrest : ∀ k < strcmpReads m (a + 1) bs,
            m' (a + 1 + BitVec.ofNat 64 k) = m (a + 1 + BitVec.ofNat 64 k) := by
          intro k hk
          rw [next_add]
          refine h (k + 1) ?_
          simp only [strcmpReads, if_neg hz, if_neg (not_not.mpr hc)]
          omega
        obtain ⟨h1, h2⟩ := ih hrest
        simp only [strcmpReads, strcmp, h0, if_neg hz, if_neg (not_not.mpr hc), h1, h2, and_self]
      · simp [strcmpReads, strcmp, h0, hc]

theorem resolveReads_congr {fs : List ApiFunction} (h : ∀ k < resolveReads m a fs,
      m' (a + BitVec.ofNat 64 k) = m (a + BitVec.ofNat 64 k)) :
    resolveReads m' a fs = resolveReads m a fs := by
  induction fs with
  | nil => rfl
  | cons f fs ih =>
    rw [resolveReads] at h
    obtain ⟨h1, h2⟩ := @strcmp_congr m m' a f.symbol fun k hk => h k (lt_max_of_lt_left hk)
    rw [resolveReads, resolveReads, h1, h2]
    by_cases hc : strcmp m a f.symbol = true
    · rw [if_pos hc, if_pos hc, ih]
      intro k hk
      rw [if_pos hc] at h
      exact h k (lt_max_of_lt_right hk)
    · rw [if_neg hc, if_neg hc]

/-- A string of `n` characters. -/
def EndsAt (m : Memory 64) (a : Ptr) (n : ℕ) : Prop :=
  (∀ k < n, m (a + BitVec.ofNat 64 k) ≠ 0) ∧ m (a + BitVec.ofNat 64 n) = 0

theorem stringLength_endsAt (h : stringLength m fuel a = some n) : EndsAt m a n := by
  induction fuel generalizing a n with
  | zero => simp [stringLength] at h
  | succ fuel ih =>
    rw [stringLength] at h
    by_cases hz : m a = 0
    · rw [if_pos hz] at h
      obtain rfl := Option.some.inj h
      exact ⟨fun k hk => absurd hk (Nat.not_lt_zero k), by rw [BitVec.add_zero]; exact hz⟩
    · rw [if_neg hz] at h
      obtain ⟨l, hl, rfl⟩ := Option.map_eq_some_iff.mp h
      obtain ⟨hne, hend⟩ := ih hl
      refine ⟨fun k hk => ?_, by rw [← next_add]; exact hend⟩
      cases k with
      | zero =>
        rw [BitVec.add_zero]
        exact hz
      | succ k =>
        rw [← next_add]
        exact hne k (by omega)

theorem stringLength_eq (h : EndsAt m a n) (hf : n < fuel) : stringLength m fuel a = some n := by
  induction n generalizing a fuel with
  | zero =>
    obtain ⟨fuel, rfl⟩ : ∃ k, fuel = k + 1 := ⟨fuel - 1, by omega⟩
    have hz := h.2
    rw [BitVec.add_zero] at hz
    exact if_pos hz
  | succ n ih =>
    obtain ⟨fuel, rfl⟩ : ∃ k, fuel = k + 1 := ⟨fuel - 1, by omega⟩
    have h0 := h.1 0 (Nat.succ_pos n)
    rw [BitVec.add_zero] at h0
    have hrest : EndsAt m (a + 1) n := by
      refine ⟨fun k hk => ?_, by rw [next_add]; exact h.2⟩
      rw [next_add]
      exact h.1 (k + 1) (by omega)
    rw [stringLength, if_neg h0, ih hrest (by omega)]
    rfl

end Strings

section Relocate

/-- The symbol of the relocation at `r`. -/
def symbolOf (d : Dynamic) (s : Loader) (r : Ptr) : Ptr :=
  d.sym + d.syment * (Rela.read s.mem r).rSym.setWidth 64

/-- The name of that symbol. -/
def nameOf (d : Dynamic) (s : Loader) (r : Ptr) : Ptr :=
  d.str + (Sym.read s.mem (symbolOf d s r)).stName.setWidth 64

/-- The relocation at `r`, the symbol that it names and as much of the name as is compared are in the
image, and the word that it writes is mapped. -/
structure EntryShows (v : PageView) (o : Obje) (kernelBase : Ptr) (d : Dynamic) (s : Loader) (r : Ptr) :
    Prop where
  info : s.Shows o (r + 8) 8
  symbol : (Rela.read s.mem r).rType = 7 → d.sym ≠ 0 ∧ s.Shows o (symbolOf d s r) 4 ∧
    s.Shows o (nameOf d s r) (resolveReads s.mem (nameOf d s r) ApiFunction.all)
  applied : Applies s.mem r → s.Shows o r 8 ∧ s.Shows o (r + 16) 8
  target : Applies s.mem r → s.Writable v (relaTarget kernelBase s.mem r) 8

/-- What the relocation at `r` makes of the machine. -/
def Loader.afterEntry (p : Pmm) (apientry : ApiFunction → Word) (kernelBase : Ptr) (d : Dynamic)
    (r : Ptr) (s : Loader) : Loader :=
  if Applies s.mem r then s.apply p apientry kernelBase d r else s

theorem Loader.relocate_eq : s.relocate v p apientry o kernelBase d r =
    if s.Shows o (r + 8) 8 then
      if (Rela.read s.mem r).rType = 7 then
        if d.sym ≠ 0 then
          if s.Shows o (symbolOf d s r) 4 then
            if s.Shows o (nameOf d s r) (resolveReads s.mem (nameOf d s r) ApiFunction.all) then
              if s.Shows o r 8 ∧ s.Shows o (r + 16) 8 then
                if s.Writable v (relaTarget kernelBase s.mem r) 8 then
                  some (s.apply p apientry kernelBase d r)
                else none
              else none
            else none
          else none
        else none
      else if (Rela.read s.mem r).rType = 8 then
        if s.Shows o r 8 ∧ s.Shows o (r + 16) 8 then
          if s.Writable v (relaTarget kernelBase s.mem r) 8 then
            some (s.apply p apientry kernelBase d r)
          else none
        else none
      else some s
    else none := by
  simp only [Loader.relocate, Option.bind_eq_bind, guard_then]
  rfl

theorem Loader.relocate_spec :
    (EntryShows v o kernelBase d s r → s.relocate v p apientry o kernelBase d r =
      some (s.afterEntry p apientry kernelBase d r)) ∧
    (¬ EntryShows v o kernelBase d s r → s.relocate v p apientry o kernelBase d r = none) := by
  rw [Loader.relocate_eq]
  constructor
  · rintro ⟨hinfo, hsymbol, happlied, htarget⟩
    rw [if_pos hinfo]
    by_cases h7 : (Rela.read s.mem r).rType = 7
    · have ha : Applies s.mem r := Or.inl h7
      obtain ⟨hsym, h4, hname⟩ := hsymbol h7
      rw [if_pos h7, if_pos hsym, if_pos h4, if_pos hname, if_pos (happlied ha),
        if_pos (htarget ha), Loader.afterEntry, if_pos ha]
    · rw [if_neg h7]
      by_cases h8 : (Rela.read s.mem r).rType = 8
      · have ha : Applies s.mem r := Or.inr h8
        rw [if_pos h8, if_pos (happlied ha), if_pos (htarget ha), Loader.afterEntry, if_pos ha]
      · have hno : ¬ Applies s.mem r := fun hc => hc.elim h7 h8
        rw [if_neg h8, Loader.afterEntry, if_neg hno]
  · intro hno
    split_ifs with hinfo h7 hsym h4 hname hrest htarget h8 hrest htarget
    · exact absurd ⟨hinfo, fun _ => ⟨hsym, h4, hname⟩, fun _ => hrest, fun _ => htarget⟩ hno
    · rfl
    · rfl
    · rfl
    · rfl
    · rfl
    · exact absurd ⟨hinfo, fun hc => absurd hc h7, fun _ => hrest, fun _ => htarget⟩ hno
    · rfl
    · rfl
    · have hnone : ¬ Applies s.mem r := not_or.mpr ⟨h7, h8⟩
      exact absurd ⟨hinfo, fun hc => absurd hc h7, fun hc => absurd hc hnone,
        fun hc => absurd hc hnone⟩ hno
    · rfl

theorem Loader.Shows.field (h : s.Shows o a n) {k : ℕ} (hb : b.toNat + k ≤ n) :
    s.Shows o (a + b) k := by
  intro i hi
  have he : a + BitVec.ofNat 64 (b.toNat + i) = a + b + BitVec.ofNat 64 i := by
    rw [BitVec.ofNat_add, BitVec.ofNat_toNat, BitVec.setWidth_eq, BitVec.add_assoc]
  rw [← he]
  exact h _ (by omega)

/-- What has been loaded is shown until the first relocation. -/
theorem Loader.Shows.of_loaded {q : Ptr × ℕ} (hr : s.relocated = []) (hq : q ∈ s.loaded)
    (h : (a - q.1).toNat + n ≤ q.2) : s.Shows o a n :=
  fun _ hk => ⟨Or.inr ⟨q, hq, within_part h hk⟩, by simp [hr]⟩

/-- The machines have loaded the same image, and differ in the relocated words only. -/
structure Loader.Agrees (s t : Loader) : Prop where
  loaded : s.loaded = t.loaded
  relocated : s.relocated = t.relocated
  frames : s.frames = t.frames
  mem : ∀ x, (∀ w ∈ t.relocated, ¬ Within w 8 x) → s.mem x = t.mem x

namespace Loader.Agrees

theorem symm (h : s.Agrees t) : t.Agrees s where
  loaded := h.loaded.symm
  relocated := h.relocated.symm
  frames := h.frames.symm
  mem x hx := (h.mem x fun w hw => hx w (h.relocated ▸ hw)).symm

theorem shows (h : s.Agrees t) : s.Shows o a n ↔ t.Shows o a n := by
  rw [Loader.Shows, Loader.Shows, h.loaded, h.relocated]

theorem writable (h : s.Agrees t) : s.Writable v a n ↔ t.Writable v a n := by
  simp only [Loader.Writable, Loader.Mapped, h.frames]

theorem byte (h : s.Agrees t) (hs : t.Shows o a n) {k : ℕ} (hk : k < n) :
    s.mem (a + BitVec.ofNat 64 k) = t.mem (a + BitVec.ofNat 64 k) :=
  h.mem _ (hs k hk).2

theorem read (h : s.Agrees t) (hs : t.Shows o a n) : readLE s.mem a n = readLE t.mem a n :=
  readLE_congr fun _ hk => h.byte hs hk

/-- What the two machines read of a relocation that is in the image. -/
theorem info (h : s.Agrees t) (hs : t.Shows o (r + 8) 8) :
    (Rela.read s.mem r).rType = (Rela.read t.mem r).rType ∧
      (Rela.read s.mem r).rSym = (Rela.read t.mem r).rSym := by
  have h8 : t.Shows o (r + 8 + 0) 4 := hs.field (by decide)
  have h12 : t.Shows o (r + 8 + 4) 4 := hs.field (by decide)
  have e12 : r + 8 + 4 = r + 12 := by ring
  rw [add_zero] at h8
  rw [e12] at h12
  exact ⟨h.read h8, h.read h12⟩

theorem applies (h : s.Agrees t) (hs : t.Shows o (r + 8) 8) : Applies s.mem r ↔ Applies t.mem r := by
  rw [Applies, Applies, (h.info hs).1]

theorem target (h : s.Agrees t) (hs : t.Shows o r 8) :
    relaTarget kernelBase s.mem r = relaTarget kernelBase t.mem r :=
  congrArg (kernelBase + ·) (h.read hs)

theorem entryShows (h : s.Agrees t) (he : EntryShows v o kernelBase d t r) : EntryShows v o kernelBase d s r := by
  obtain ⟨htype, hsym⟩ := h.info he.info
  refine ⟨h.shows.mpr he.info, fun h7 => ?_, fun ha => ?_, fun ha => ?_⟩
  · obtain ⟨hne, h4, hname⟩ := he.symbol (htype ▸ h7)
    have hsymbol : symbolOf d s r = symbolOf d t r := by rw [symbolOf, symbolOf, hsym]
    have hst : (Sym.read s.mem (symbolOf d t r)).stName = (Sym.read t.mem (symbolOf d t r)).stName :=
      h.read h4
    have hnames : nameOf d s r = nameOf d t r := by rw [nameOf, nameOf, hsymbol, hst]
    rw [hsymbol, hnames, resolveReads_congr fun k hk => h.byte hname hk]
    exact ⟨hne, h.shows.mpr h4, h.shows.mpr hname⟩
  · obtain ⟨h0, h16⟩ := he.applied ((h.applies he.info).mp ha)
    exact ⟨h.shows.mpr h0, h.shows.mpr h16⟩
  · have ha' := (h.applies he.info).mp ha
    rw [h.target (he.applied ha').1]
    exact h.writable.mpr (he.target ha')

theorem entryShows_iff (h : s.Agrees t) : EntryShows v o kernelBase d s r ↔ EntryShows v o kernelBase d t r :=
  ⟨h.symm.entryShows, h.entryShows⟩

end Loader.Agrees

end Relocate

section Entries

variable (kernelBase : Ptr) (d : Dynamic) (s : Loader)

/-- The address of an entry of DT_JMPREL. -/
def entryAt (d : Dynamic) (j : ℕ) : Ptr := d.jmprel + BitVec.ofNat 64 j * d.relent

/-- The words that the first relocations of the loaded image write. -/
def written : ℕ → List Ptr
  | 0 => []
  | j+1 => if Applies s.mem (entryAt d j) then relaTarget kernelBase s.mem (entryAt d j) :: written j
      else written j

/-- The image as it has been loaded, of which the words of the first relocations are not read any
more. -/
def imageAt (j : ℕ) : Loader := { s with relocated := written kernelBase d s j }

variable {kernelBase d s}

theorem relocate_outside (h : ¬ Within (relaTarget kernelBase m r) 8 x) :
    relocate p apientry kernelBase d r m x = m x := by
  unfold relocate
  split_ifs
  · exact write64_outside _ _ h
  · exact write64_outside _ _ h
  · rfl

/-- After an entry the machines still agree. -/
theorem Loader.Agrees.next (h : s'.Agrees (imageAt kernelBase d s j))
    (he : EntryShows v o kernelBase d (imageAt kernelBase d s j) (entryAt d j)) :
    (s'.afterEntry p apientry kernelBase d (entryAt d j)).Agrees (imageAt kernelBase d s (j + 1)) := by
  have happlies : Applies s'.mem (entryAt d j) ↔ Applies s.mem (entryAt d j) := h.applies he.info
  by_cases ha : Applies s.mem (entryAt d j)
  · have htarget : relaTarget kernelBase s'.mem (entryAt d j) =
        relaTarget kernelBase s.mem (entryAt d j) := h.target (he.applied ha).1
    have hwritten : written kernelBase d s (j + 1) =
        relaTarget kernelBase s.mem (entryAt d j) :: written kernelBase d s j := if_pos ha
    rw [Loader.afterEntry, if_pos (happlies.mpr ha)]
    refine ⟨h.loaded, ?_, h.frames, fun x hx => ?_⟩
    · change relaTarget kernelBase s'.mem (entryAt d j) :: s'.relocated = written kernelBase d s (j + 1)
      rw [hwritten, htarget, h.relocated]
      rfl
    · change ∀ w ∈ written kernelBase d s (j + 1), _ at hx
      rw [hwritten] at hx
      have hout := hx _ List.mem_cons_self
      rw [← htarget] at hout
      exact (relocate_outside hout).trans (h.mem x fun w hw => hx w (List.mem_cons_of_mem _ hw))
  · have hwritten : written kernelBase d s (j + 1) = written kernelBase d s j := if_neg ha
    rw [Loader.afterEntry, if_neg fun hc => ha (happlies.mp hc), imageAt, hwritten]
    exact h

end Entries

section Loop

/-- The loop over DT_JMPREL makes `n` turns: the multiples of the entry size are below the size of the
table up to there. -/
structure TableTurns (d : Dynamic) (n : ℕ) : Prop where
  below : ∀ j < n, BitVec.ofNat 64 j * d.relent < d.jmprelsz
  last : ¬ BitVec.ofNat 64 n * d.relent < d.jmprelsz

theorem relocateAll_turn (j : ℕ) :
    Loader.relocateAll v p apientry o kernelBase d (fuel + 1) (BitVec.ofNat 64 j * d.relent) s =
      if BitVec.ofNat 64 j * d.relent < d.jmprelsz then
        (s.relocate v p apientry o kernelBase d (entryAt d j)).bind
          (Loader.relocateAll v p apientry o kernelBase d fuel (BitVec.ofNat 64 (j + 1) * d.relent))
      else some s := by
  have hnext : BitVec.ofNat 64 j * d.relent + d.relent = BitVec.ofNat 64 (j + 1) * d.relent := by
    have hsucc : BitVec.ofNat 64 (j + 1) = BitVec.ofNat 64 j + 1 := BitVec.ofNat_add ..
    rw [hsucc]
    ring
  rw [Loader.relocateAll, hnext]
  rfl

variable (h : s'.Agrees (imageAt kernelBase d s j))
include h

/-- With all entries in the image the loop comes to its end. -/
theorem relocateAll_returns {k : ℕ} (ht : TableTurns d n) (hk : j + k = n)
    (he : ∀ i, j ≤ i → i < n → EntryShows v o kernelBase d (imageAt kernelBase d s i) (entryAt d i)) :
    ∃ t, ∀ fuel, k < fuel → Loader.relocateAll v p apientry o kernelBase d fuel
      (BitVec.ofNat 64 j * d.relent) s' = some t := by
  induction k generalizing j s' with
  | zero =>
    obtain rfl : j = n := hk
    refine ⟨s', fun fuel hf => ?_⟩
    obtain ⟨fuel, rfl⟩ : ∃ k, fuel = k + 1 := ⟨fuel - 1, by omega⟩
    rw [relocateAll_turn, if_neg ht.last]
  | succ k ih =>
    have hj := he j le_rfl (by omega)
    have hnext : (s'.afterEntry p apientry kernelBase d (entryAt d j)).Agrees
        (imageAt kernelBase d s (j + 1)) := h.next hj
    obtain ⟨t, hrun⟩ := ih hnext (by omega) fun i hi => he i (by omega)
    refine ⟨t, fun fuel hf => ?_⟩
    obtain ⟨fuel, rfl⟩ : ∃ k, fuel = k + 1 := ⟨fuel - 1, by omega⟩
    rw [relocateAll_turn, if_pos (ht.below j (by omega)),
      Loader.relocate_spec.1 (h.entryShows_iff.mpr hj), Option.bind_some, hrun fuel (by omega)]

/-- A loop that comes to its end has found all entries in the image. -/
theorem relocateAll_entries (hrun : Loader.relocateAll v p apientry o kernelBase d fuel
    (BitVec.ofNat 64 j * d.relent) s' = some t) :
    ∃ n, j ≤ n ∧ (∀ i, j ≤ i → i < n → BitVec.ofNat 64 i * d.relent < d.jmprelsz) ∧
      ¬ BitVec.ofNat 64 n * d.relent < d.jmprelsz ∧
      ∀ i, j ≤ i → i < n → EntryShows v o kernelBase d (imageAt kernelBase d s i) (entryAt d i) := by
  induction fuel generalizing j s' with
  | zero => cases hrun
  | succ fuel ih =>
    rw [relocateAll_turn] at hrun
    by_cases hlt : BitVec.ofNat 64 j * d.relent < d.jmprelsz
    · rw [if_pos hlt] at hrun
      by_cases hs : EntryShows v o kernelBase d s' (entryAt d j)
      · have hj := h.entryShows_iff.mp hs
        rw [Loader.relocate_spec.1 hs, Option.bind_some] at hrun
        obtain ⟨n, hn, hbelow, hlast, hentry⟩ := ih (h.next hj) hrun
        refine ⟨n, by omega, fun i hi hin => ?_, hlast, fun i hi hin => ?_⟩
        · rcases Nat.eq_or_lt_of_le hi with rfl | hi'
          · exact hlt
          · exact hbelow i hi' hin
        · rcases Nat.eq_or_lt_of_le hi with rfl | hi'
          · exact hj
          · exact hentry i hi' hin
      · rw [Loader.relocate_spec.2 hs] at hrun
        cases hrun
    · refine ⟨j, le_rfl, fun i hi hin => ?_, hlt, fun i hi hin => ?_⟩
      · omega
      · omega

end Loop

section Fixup

/-- What fixup_kernel takes from the entries of the dynamic section. -/
def dynamicOf (m : Memory 64) (c : Dynamic × Word) : Dynamic :=
  { c.1 with apirev := ((m (c.1.str + c.2 + 13) - 48) <<< 4) + m (c.1.str + c.2 + 15) - 48 }

variable {c : Dynamic × Word} {dynamic needed : Ptr}

/-- The tables that a dynamic section gives are in the image. -/
structure TablesFit (v : PageView) (o : Obje) (kernelBase : Ptr) (s : Loader) (d : Dynamic)
    (needed : Ptr) : Prop where
  str : d.str ≠ 0
  compared : s.Shows o needed (matchReads s.mem needed Loader.apiString)
  printed : ¬ Matches s.mem needed Loader.apiString → needed ≠ 0 →
    ∃ n, EndsAt s.mem needed n ∧ s.Shows o needed (n + 1)
  revision : s.Shows o (needed + 13) 1 ∧ s.Shows o (needed + 15) 1
  entries : d.jmprel ≠ 0 → d.relent ≠ 0 ∧ ∃ n, TableTurns d n ∧
    ∀ j < n, EntryShows v o kernelBase d (imageAt kernelBase d s j) (entryAt d j)

theorem fixupKernel_eq : s.fixupKernel v p apientry o kernelBase fuel dynamic =
    if dynamic ≠ 0 then
      (scanDynamic o kernelBase s.mem fuel dynamic ({}, 0)).bind fun c =>
        if c.1.str ≠ 0 then
          if s.Shows o (c.1.str + c.2) (matchReads s.mem (c.1.str + c.2) Loader.apiString) then
            (s.printNeeded o fuel (c.1.str + c.2)).bind fun _ =>
              if s.Shows o (c.1.str + c.2 + 13) 1 ∧ s.Shows o (c.1.str + c.2 + 15) 1 then
                if (dynamicOf s.mem c).jmprel = 0 then some s
                else if (dynamicOf s.mem c).relent ≠ 0 then
                  Loader.relocateAll v p apientry o kernelBase (dynamicOf s.mem c) fuel 0 s
                else none
              else none
          else none
        else none
    else none := by
  simp only [Loader.fixupKernel, Option.bind_eq_bind, guard_then]
  rfl

theorem printNeeded_eq : s.printNeeded o fuel needed =
    if Matches s.mem needed Loader.apiString ∨ needed = 0 then some ()
    else (stringLength s.mem fuel needed).bind fun n =>
      if s.Shows o needed (n + 1) then some () else none := by
  rw [Loader.printNeeded]
  split_ifs
  · rfl
  · rfl

theorem printNeeded_returns (h : ¬ Matches s.mem needed Loader.apiString → needed ≠ 0 →
      ∃ n, EndsAt s.mem needed n ∧ s.Shows o needed (n + 1)) :
    ∃ l, ∀ fuel, l < fuel → s.printNeeded o fuel needed = some () := by
  by_cases hc : Matches s.mem needed Loader.apiString ∨ needed = 0
  · exact ⟨0, fun fuel _ => printNeeded_eq.trans (if_pos hc)⟩
  · obtain ⟨hm, hz⟩ := not_or.mp hc
    obtain ⟨n, hend, hshows⟩ := h hm hz
    refine ⟨n, fun fuel hf => ?_⟩
    rw [printNeeded_eq, if_neg hc, stringLength_eq hend hf, Option.bind_some, if_pos hshows]

theorem printNeeded_string (h : s.printNeeded o fuel needed = some ())
    (hm : ¬ Matches s.mem needed Loader.apiString) (hz : needed ≠ 0) :
    ∃ n, EndsAt s.mem needed n ∧ s.Shows o needed (n + 1) := by
  rw [printNeeded_eq, if_neg (not_or.mpr ⟨hm, hz⟩)] at h
  obtain ⟨n, hn, hshows⟩ := Option.bind_eq_some_iff.mp h
  exact ⟨n, stringLength_endsAt hn, (Option.ite_none_right_eq_some.mp hshows).1⟩

variable (hk : s.Keeps o m) (hr : s.relocated = [])
include hr

theorem agrees_first : s.Agrees (imageAt kernelBase d s 0) where
  loaded := rfl
  relocated := hr
  frames := rfl
  mem _ _ := rfl

include hk

/-- With its tables in the image, fixup_kernel comes to an end. -/
theorem fixupKernel_returns (p : Pmm) (apientry : ApiFunction → Word) {es : List Dyn}
    (hd : dynamic ≠ 0) (hes : DynListed o m dynamic es) (hc : es.foldl (collect kernelBase) ({}, 0) = c)
    (ht : TablesFit v o kernelBase s (dynamicOf s.mem c) (c.1.str + c.2)) :
    ∃ t l, ∀ fuel, l < fuel → s.fixupKernel v p apientry o kernelBase fuel dynamic = some t := by
  obtain ⟨l, hprint⟩ := printNeeded_returns ht.printed
  have hrun : ∀ fuel, es.length + l < fuel → s.fixupKernel v p apientry o kernelBase fuel dynamic =
      if (dynamicOf s.mem c).jmprel = 0 then some s
      else if (dynamicOf s.mem c).relent ≠ 0 then
        Loader.relocateAll v p apientry o kernelBase (dynamicOf s.mem c) fuel 0 s
      else none := by
    intro fuel hf
    have hstr : c.1.str ≠ 0 := ht.str
    rw [fixupKernel_eq, if_pos hd, scanDynamic_listed hk hes (by omega), hc, Option.bind_some,
      if_pos hstr, if_pos ht.compared, hprint fuel (by omega), Option.bind_some, if_pos ht.revision]
  by_cases hj : (dynamicOf s.mem c).jmprel = 0
  · exact ⟨s, es.length + l, fun fuel hf => (hrun fuel hf).trans (if_pos hj)⟩
  · obtain ⟨hne, n, hn, hentry⟩ := ht.entries hj
    have hfirst : s.Agrees (imageAt kernelBase (dynamicOf s.mem c) s 0) := agrees_first hr
    obtain ⟨t, hloop⟩ : ∃ t, ∀ fuel, n < fuel → Loader.relocateAll v p apientry o kernelBase
        (dynamicOf s.mem c) fuel (BitVec.ofNat 64 0 * (dynamicOf s.mem c).relent) s = some t :=
      relocateAll_returns hfirst hn (Nat.zero_add n) fun i _ => hentry i
    refine ⟨t, es.length + l + n, fun fuel hf => ?_⟩
    have hlast := hloop fuel (by omega)
    have hzero : BitVec.ofNat 64 0 * (dynamicOf s.mem c).relent = 0 := zero_mul _
    rw [hzero] at hlast
    rw [hrun fuel (by omega), if_neg hj, if_pos hne, hlast]

/-- When fixup_kernel comes to an end, its tables were in the image. -/
theorem fixupKernel_tables (h : s.fixupKernel v p apientry o kernelBase fuel dynamic = some t) :
    dynamic ≠ 0 ∧ ∃ es c, DynListed o m dynamic es ∧ es.foldl (collect kernelBase) ({}, 0) = c ∧
      TablesFit v o kernelBase s (dynamicOf s.mem c) (c.1.str + c.2) := by
  rw [fixupKernel_eq] at h
  obtain ⟨hd, h⟩ := Option.ite_none_right_eq_some.mp h
  obtain ⟨c, hscan, h⟩ := Option.bind_eq_some_iff.mp h
  obtain ⟨hstr, h⟩ := Option.ite_none_right_eq_some.mp h
  obtain ⟨hcompared, h⟩ := Option.ite_none_right_eq_some.mp h
  obtain ⟨_, hprint, h⟩ := Option.bind_eq_some_iff.mp h
  obtain ⟨hrevision, h⟩ := Option.ite_none_right_eq_some.mp h
  obtain ⟨es, hes, hc⟩ := listed_of_scanDynamic hk hscan
  refine ⟨hd, es, c, hes, hc.symm, hstr, hcompared, printNeeded_string hprint, hrevision,
    fun hj => ?_⟩
  rw [if_neg hj] at h
  obtain ⟨hne, h⟩ := Option.ite_none_right_eq_some.mp h
  have hzero : BitVec.ofNat 64 0 * (dynamicOf s.mem c).relent = 0 := zero_mul _
  rw [← hzero] at h
  have hfirst : s.Agrees (imageAt kernelBase (dynamicOf s.mem c) s 0) := agrees_first hr
  obtain ⟨n, -, hbelow, hlast, hentry⟩ := relocateAll_entries hfirst h
  exact ⟨hne, n, ⟨fun j => hbelow j (Nat.zero_le j), hlast⟩, fun j => hentry j (Nat.zero_le j)⟩

end Fixup

end Pinion64
