import Pinion64.ModuleBounds

/-! The memory map that init_multiboot builds: for which information blocks it comes to an end, keeps
to its static buffers and lists the usable regions. -/
namespace Pinion64
open Bytes

namespace Unfold

section Records

variable (m : Memory 32) (a : Addr) (n : BitVec 32)

/-- The records from an offset on, one after the other by their size fields, to the end of the map. -/
def Walk : BitVec 32 → List Addr → Prop
  | i, [] => ¬ i < n
  | i, r :: l => i < n ∧ r = a + i ∧ Walk (i + (recordSize m r + 4)) l

/-- The base and the length of each record of type 1. -/
def regions (l : List Addr) : List (Word × Word) :=
  (l.filter fun r => recordType m r = 1).map fun r => (baseAddr m r, recordLength m r)

/-- `entry[0]` to `entry[count - 1]` of a memory map. -/
def mapEntries : List (Word × Word) :=
  (List.range (regionCount m a).toNat).map fun k =>
    (readLE m (a + BitVec.ofNat 32 (16 + 16 * k)) 8, readLE m (a + BitVec.ofNat 32 (24 + 16 * k)) 8)

end Records

/-- The information block lies apart from the static buffers, the records from the map. -/
structure Outside (L : Layout) (m : Memory 32) (mboot : Addr) : Prop where
  blockMmap : Separate mboot 52 L.mbootStaticMmap 256
  blockObjl : Separate mboot 52 L.mbootStaticObjl 256
  records : flags m mboot &&& mbootFlagMmap ≠ 0 →
    ∀ i < mmapCount m mboot, Separate (mmapAddr m mboot + i) 24 L.mbootStaticMmap 256

variable {L : Layout} {m : Memory 32} {mboot : Addr} {s s' : Machine}

section Congr

variable {m' : Memory 32} {a : Addr}

theorem record_congr (h : ∀ x, Within a 24 x → m' x = m x) :
    recordSize m' a = recordSize m a ∧ baseAddr m' a = baseAddr m a ∧
      recordLength m' a = recordLength m a ∧ recordType m' a = recordType m a := by
  have hf : ∀ (o : Addr) (n : ℕ), o.toNat + n ≤ 24 → readLE m' (a + o) n = readLE m (a + o) n :=
    fun o n hn => readLE_eq_of_within (by omega) fun x hx => h x (within_field o hx hn (by decide))
  refine ⟨?_, hf 4 8 (by decide), hf 12 8 (by decide), hf 20 4 (by decide)⟩
  exact readLE_eq_of_within (by decide) fun x hx => h x (lt_of_lt_of_le hx (by decide))

end Congr

section AddRegion

variable {r : Addr} {c : Word}

theorem entry_toNat (hcount : c.toNat < 15) :
    (16 + 16 * c.setWidth 32 : Addr).toNat = 16 + 16 * c.toNat := by
  rw [BitVec.toNat_add, BitVec.toNat_mul, BitVec.toNat_setWidth]
  change (16 + 16 * (c.toNat % 2 ^ 32) % 2 ^ 32) % 2 ^ 32 = _
  omega

theorem entrySize_toNat (hcount : c.toNat < 15) :
    (16 + 16 * c.setWidth 32 + 8 : Addr).toNat = 24 + 16 * c.toNat := by
  rw [BitVec.toNat_add, entry_toNat hcount]
  change (16 + 16 * c.toNat + 8) % 2 ^ 32 = _
  omega

/-- The four writes, with what is read between them taken from the memory before the first. -/
theorem addRegion_writes (hr : Separate r 24 s.mmap 256) (hc : regionCount s.mem s.mmap = c)
    (hcount : c.toNat < 15) : addRegion s r =
      (((s.write64 .mmap 0 (mmapTotal s.mem s.mmap + recordLength s.mem r)).write64 .mmap
        (16 + 16 * c.setWidth 32) (baseAddr s.mem r)).write64 .mmap
        (16 + 16 * c.setWidth 32 + 8) (recordLength s.mem r)).write64 .mmap 8 (c + 1) := by
  have hq := entry_toNat hcount
  have hq8 := entrySize_toNat hcount
  obtain ⟨b, hb⟩ : ∃ b, s.mmap = b := ⟨_, rfl⟩
  rw [hb] at hr hc ⊢
  have hkeep : ∀ (s : Machine) (o : Addr) (v : Word), s.mmap = b → o.toNat + 8 ≤ 256 →
      baseAddr (s.write64 .mmap o v).mem r = baseAddr s.mem r ∧
        recordLength (s.write64 .mmap o v).mem r = recordLength s.mem r := by
    intro s o v hb ho
    have hsame : ∀ x, Within r 24 x → (s.write64 .mmap o v).mem x = s.mem x := by
      subst hb
      exact fun x hx => write_outside (b := .mmap) ho (hr.not_within hx)
    exact ⟨(record_congr hsame).2.1, (record_congr hsame).2.2.1⟩
  have hcnt : ∀ (s : Machine) (o : Addr) (v : Word), s.mmap = b → o.toNat + 8 ≤ 256 →
      o = 0 ∨ 16 ≤ o.toNat →
      regionCount (s.write64 .mmap o v).mem b = regionCount s.mem b := by
    intro s o v hb ho h
    subst hb
    rcases h with rfl | h
    · exact readLE_write_behind (b := .mmap) (n := 8) (by decide) (by decide) (by decide)
    · exact readLE_write_front (b := .mmap) (n := 8) (by decide) h ho
  simp only [addRegion, regionOffset, write64_mmap, hb]
  rw [hcnt s 0 _ hb (by decide) (Or.inl rfl), hc, (hkeep s 0 _ hb (by decide)).1]
  generalize hs1 : s.write64 .mmap 0 (mmapTotal s.mem b + recordLength s.mem r) = s1
  have hb1 : s1.mmap = b := by rw [← hs1, write64_mmap, hb]
  have hl1 : recordLength s1.mem r = recordLength s.mem r := by
    rw [← hs1]
    exact (hkeep s 0 _ hb (by decide)).2
  have hc1 : regionCount s1.mem b = c := by
    rw [← hs1, hcnt s 0 _ hb (by decide) (Or.inl rfl), hc]
  rw [hcnt s1 _ _ hb1 (by omega) (Or.inr (by omega)), hc1, (hkeep s1 _ _ hb1 (by omega)).2, hl1]
  generalize hs2 : s1.write64 .mmap (16 + 16 * c.setWidth 32) (baseAddr s.mem r) = s2
  have hb2 : s2.mmap = b := by rw [← hs2, write64_mmap, hb1]
  have hc2 : regionCount s2.mem b = c := by
    rw [← hs2, hcnt s1 _ _ hb1 (by omega) (Or.inr (by omega)), hc1]
  rw [hcnt s2 _ _ hb2 (by omega) (Or.inr (by omega)), hc2]

section Fields

variable {t x y z : Word} {q b : Addr} {s₁ s₂ s₃ : Machine}

theorem readLE_write64_front (hb : s.mmap = b) {o p : Addr} {v : Word} (hp : p.toNat + 8 ≤ o.toNat)
    (ho : o.toNat + 8 ≤ 256) :
    (readLE (s.write64 .mmap o v).mem (b + p) 8 : Word) = readLE s.mem (b + p) 8 := by
  subst hb
  exact readLE_write_front (b := .mmap) (n := 8) (by decide) hp ho

theorem readLE_write64_behind (hb : s.mmap = b) {o p : Addr} {v : Word}
    (ho : o.toNat + 8 ≤ p.toNat) (hp : p.toNat + 8 ≤ 256) :
    (readLE (s.write64 .mmap o v).mem (b + p) 8 : Word) = readLE s.mem (b + p) 8 := by
  subst hb
  exact readLE_write_behind (b := .mmap) (n := 8) (by decide) ho hp

theorem readLE_write64_self (hb : s.mmap = b) {o : Addr} {v : Word} :
    readLE (s.write64 .mmap o v).mem (b + o) 8 = v := by
  subst hb
  exact readLE_write_self (b := .mmap) (n := 8) (by decide)

theorem write64_outside (hb : s.mmap = b) {o x : Addr} {v : Word} (ho : o.toNat + 8 ≤ 256)
    (hx : ¬ Within b 256 x) : (s.write64 .mmap o v).mem x = s.mem x := by
  subst hb
  exact write_outside (b := .mmap) ho hx

theorem mmapTotal_eq (m : Memory 32) (a : Addr) : mmapTotal m a = readLE m (a + 0) 8 := by
  rw [show a + 0 = a from BitVec.add_zero a]
  rfl

/-- What the fields of the map hold after the four writes. -/
theorem readLE_writes (hb : s.mmap = b) (hq : 16 ≤ q.toNat) (hq' : q.toNat + 16 ≤ 256)
    (h1 : s.write64 .mmap 0 t = s₁) (h2 : s₁.write64 .mmap q x = s₂)
    (h3 : s₂.write64 .mmap (q + 8) y = s₃) (h4 : s₃.write64 .mmap 8 z = s') :
    (mmapTotal s'.mem b = t ∧ regionCount s'.mem b = z) ∧
      (readLE s'.mem (b + q) 8 = x ∧ readLE s'.mem (b + (q + 8)) 8 = y) ∧
      ∀ p : Addr, 16 ≤ p.toNat → p.toNat + 8 ≤ q.toNat →
        readLE s'.mem (b + p) 8 = readLE s.mem (b + p) 8 := by
  have hq8 : (q + 8).toNat = q.toNat + 8 := by
    rw [BitVec.toNat_add]
    change (q.toNat + 8) % 2 ^ 32 = _
    omega
  have h8 : (8 : Addr).toNat = 8 := rfl
  have h0 : (0 : Addr).toNat = 0 := rfl
  have hb1 : s₁.mmap = b := by rw [← h1, write64_mmap, hb]
  have hb2 : s₂.mmap = b := by rw [← h2, write64_mmap, hb1]
  have hb3 : s₃.mmap = b := by rw [← h3, write64_mmap, hb2]
  refine ⟨⟨?_, ?_⟩, ⟨?_, ?_⟩, fun p hp hpq => ?_⟩
  · rw [mmapTotal_eq, ← h4, readLE_write64_front hb3 (by omega) (by omega), ← h3,
      readLE_write64_front hb2 (by omega) (by omega), ← h2,
      readLE_write64_front hb1 (by omega) (by omega), ← h1, readLE_write64_self hb]
  · rw [regionCount, ← h4, readLE_write64_self hb3]
  · rw [← h4, readLE_write64_behind hb3 (by omega) (by omega), ← h3,
      readLE_write64_front hb2 (by omega) (by omega), ← h2, readLE_write64_self hb1]
  · rw [← h4, readLE_write64_behind hb3 (by omega) (by omega), ← h3, readLE_write64_self hb2]
  · rw [← h4, readLE_write64_behind hb3 (by omega) (by omega), ← h3,
      readLE_write64_front hb2 (by omega) (by omega), ← h2,
      readLE_write64_front hb1 (by omega) (by omega), ← h1,
      readLE_write64_behind hb (by omega) (by omega)]

end Fields

/-- The map lists the given regions, nothing outside the buffers has changed, and the writes fit. -/
structure MapState (m : Memory 32) (b : Addr) (s : Machine) (l : List (Word × Word)) : Prop where
  mmap : s.mmap = b
  outside : ∀ x, ¬ Within b 256 x → s.mem x = m x
  entries : mapEntries s.mem b = l
  total : mmapTotal s.mem b = (l.map Prod.snd).sum
  fits : ∀ w ∈ s.writes, w.Fits

variable {b : Addr} {l : List (Word × Word)}

theorem MapState.count (h : MapState m b s l) : (regionCount s.mem b).toNat = l.length := by
  rw [← h.entries, mapEntries, List.length_map, List.length_range]

theorem addRegion_mapState (h : MapState m b s l) (hr : Separate r 24 b 256) (hl : l.length < 15) :
    MapState m b (addRegion s r) (l ++ [(baseAddr m r, recordLength m r)]) := by
  have hcount := h.count
  obtain rfl := h.mmap
  have hsame : ∀ x, Within r 24 x → s.mem x = m x := fun x hx => h.outside x (hr.not_within hx)
  obtain ⟨-, hbase, hlen, -⟩ := record_congr hsame
  have hq := entry_toNat (c := regionCount s.mem s.mmap) (by omega)
  have hq8 := entrySize_toNat (c := regionCount s.mem s.mmap) (by omega)
  rw [addRegion_writes hr rfl (by omega), hbase, hlen]
  generalize h1 : s.write64 .mmap 0 (mmapTotal s.mem s.mmap + recordLength m r) = s₁
  generalize h2 : s₁.write64 .mmap (16 + 16 * (regionCount s.mem s.mmap).setWidth 32)
    (baseAddr m r) = s₂
  generalize h3 : s₂.write64 .mmap (16 + 16 * (regionCount s.mem s.mmap).setWidth 32 + 8)
    (recordLength m r) = s₃
  generalize h4 : s₃.write64 .mmap 8 (regionCount s.mem s.mmap + 1) = s₄
  obtain ⟨⟨ht, hc⟩, ⟨hx, hy⟩, hkeep⟩ := readLE_writes rfl (by omega) (by omega) h1 h2 h3 h4
  have hb1 : s₁.mmap = s.mmap := by rw [← h1, write64_mmap]
  have hb2 : s₂.mmap = s.mmap := by rw [← h2, write64_mmap, hb1]
  have hb3 : s₃.mmap = s.mmap := by rw [← h3, write64_mmap, hb2]
  have h8 : (8 : Addr).toNat = 8 := rfl
  refine ⟨?_, fun x hx => ?_, ?_, ?_, ?_⟩
  · rw [← h4, write64_mmap, hb3]
  · rw [← h4, write64_outside hb3 (by omega) hx, ← h3, write64_outside hb2 (by omega) hx, ← h2,
      write64_outside hb1 (by omega) hx, ← h1, write64_outside rfl (by decide) hx, h.outside x hx]
  · have hlen : (regionCount s.mem s.mmap + 1).toNat = l.length + 1 := by
      rw [BitVec.toNat_add, hcount]
      change (l.length + 1) % 2 ^ 64 = _
      omega
    have hlast : (BitVec.ofNat 32 (16 + 16 * l.length)) =
        16 + 16 * (regionCount s.mem s.mmap).setWidth 32 := by
      apply BitVec.eq_of_toNat_eq
      rw [hq, hcount, BitVec.toNat_ofNat]
      omega
    have hlast8 : (BitVec.ofNat 32 (24 + 16 * l.length)) =
        16 + 16 * (regionCount s.mem s.mmap).setWidth 32 + 8 := by
      apply BitVec.eq_of_toNat_eq
      rw [hq8, hcount, BitVec.toNat_ofNat]
      omega
    rw [mapEntries, hc, hlen, List.range_succ, List.map_append, List.map_singleton, hlast, hlast8,
      hx, hy]
    congr 1
    have hentries := h.entries
    rw [mapEntries, hcount] at hentries
    refine Eq.trans (List.map_congr_left fun k hk => ?_) hentries
    have hk' := List.mem_range.mp hk
    have h16 : (BitVec.ofNat 32 (16 + 16 * k)).toNat = 16 + 16 * k := by
      rw [BitVec.toNat_ofNat]
      omega
    have h24 : (BitVec.ofNat 32 (24 + 16 * k)).toNat = 24 + 16 * k := by
      rw [BitVec.toNat_ofNat]
      omega
    rw [hkeep _ (by omega) (by omega), hkeep _ (by omega) (by omega)]
  · rw [ht, h.total, List.map_append, List.sum_append, List.map_singleton, List.sum_singleton]
  · have hf1 : ∀ w ∈ s₁.writes, w.Fits := h1 ▸ fits_write h.fits (by decide)
    have hf2 : ∀ w ∈ s₂.writes, w.Fits := h2 ▸ fits_write hf1 (by omega)
    have hf3 : ∀ w ∈ s₃.writes, w.Fits := h3 ▸ fits_write hf2 (by omega)
    exact h4 ▸ fits_write hf3 (by decide)

end AddRegion

section MapLoop

variable {b r i : Addr} {done : List (Word × Word)} {l : List Addr} {fuel : ℕ}

theorem regions_cons : regions m (r :: l) =
    (if recordType m r = 1 then [(baseAddr m r, recordLength m r)] else []) ++ regions m l := by
  unfold regions
  split_ifs with ht
  · rw [List.filter_cons_of_pos (by simpa using ht)]
    rfl
  · rw [List.filter_cons_of_neg (by simpa using ht)]
    rfl

theorem addRegion_suffix : s.writes <:+ (addRegion s r).writes :=
  ⟨[_, _, _, _], rfl⟩

/-- The log of the writes only grows. -/
theorem mapLoop_suffix (h : mapLoop mboot fuel i r s = some s') : s.writes <:+ s'.writes := by
  induction fuel generalizing i r s with
  | zero => exact absurd h (by simp [mapLoop])
  | succ fuel ih =>
    rw [mapLoop] at h
    split_ifs at h with hi ht
    · exact addRegion_suffix.trans (ih h)
    · exact ih h
    · rw [Option.some.inj h]

/-- The sixteenth region is written behind the end of the buffer. -/
theorem addRegion_full (h : MapState m b s done) (hfull : done.length = 15) :
    ∃ w ∈ (addRegion s r).writes, ¬ w.Fits := by
  have hcount := h.count
  obtain rfl := h.mmap
  refine ⟨⟨.mmap, (regionOffset (s.write64 .mmap 0
    (mmapTotal s.mem s.mmap + recordLength s.mem r))).toNat, 8⟩, ?_, ?_⟩
  · exact List.mem_cons_of_mem _ (List.mem_cons_of_mem _ List.mem_cons_self)
  · have hc : regionCount (s.write64 .mmap 0 (mmapTotal s.mem s.mmap + recordLength s.mem r)).mem
        s.mmap = 15 := by
      refine (readLE_write64_behind rfl (by decide) (by decide)).trans ?_
      exact BitVec.eq_of_toNat_eq (hcount.trans hfull)
    rw [Write.Fits, regionOffset]
    change ¬ (16 + 16 * (regionCount _ s.mmap).setWidth 32 : Addr).toNat + 8 ≤ 256
    rw [hc]
    decide

/-- The loop writes nothing but the map. -/
theorem mapLoop_same (h : mapLoop mboot fuel i r s = some s') :
    s'.reads = s.reads ∧ s'.objectList = s.objectList ∧ s'.pinionImage = s.pinionImage := by
  induction fuel generalizing i r s with
  | zero => exact absurd h (by simp [mapLoop])
  | succ fuel ih =>
    rw [mapLoop] at h
    split_ifs at h with hi ht
    · have hloop := ih h
      exact hloop
    · exact ih h
    · rw [Option.some.inj h]
      exact ⟨rfl, rfl, rfl⟩

variable (ho : Outside L m mboot)
include ho

omit ho in
theorem MapState.record (h : MapState m b s done) (hr : Separate r 24 b 256) :
    recordSize s.mem r = recordSize m r ∧ recordType s.mem r = recordType m r := by
  have hsame : ∀ x, Within r 24 x → s.mem x = m x := fun x hx => h.outside x (hr.not_within hx)
  exact ⟨(record_congr hsame).1, (record_congr hsame).2.2.2⟩

theorem MapState.block (h : MapState m L.mbootStaticMmap s done) :
    mmapCount s.mem mboot = mmapCount m mboot :=
  (block_congr fun x hx => h.outside x (ho.blockMmap.not_within hx)).2.2.2.1

variable (hflag : flags m mboot &&& mbootFlagMmap ≠ 0)
include hflag

/-- One turn of the loop. -/
theorem mapLoop_step (h : MapState m L.mbootStaticMmap s done) (hi : i < mmapCount m mboot)
    (hr : r = mmapAddr m mboot + i) (hroom : recordType m r = 1 → done.length < 15) : ∃ t,
      MapState m L.mbootStaticMmap t
        (done ++ if recordType m r = 1 then [(baseAddr m r, recordLength m r)] else []) ∧
      ∀ fuel, mapLoop mboot (fuel + 1) i r s = mapLoop mboot fuel (i + (recordSize m r + 4))
        (mmapAddr m mboot + (i + (recordSize m r + 4))) t := by
  have hsep : Separate r 24 L.mbootStaticMmap 256 := hr ▸ ho.records hflag i hi
  have hstate : MapState m L.mbootStaticMmap (if recordType m r = 1 then addRegion s r else s)
      (done ++ if recordType m r = 1 then [(baseAddr m r, recordLength m r)] else []) := by
    split_ifs with ht
    · exact addRegion_mapState h hsep (hroom ht)
    · rw [List.append_nil]
      exact h
  refine ⟨_, hstate, fun fuel => ?_⟩
  have hnext : r + recordSize m r + 4 = mmapAddr m mboot + (i + (recordSize m r + 4)) := by
    rw [hr]
    ring
  rw [mapLoop, h.block ho, if_pos hi]
  simp only [(h.record hsep).2, (hstate.record hsep).1, hnext]

/-- A walk of the records is a run of the loop. -/
theorem mapLoop_walk (h : MapState m L.mbootStaticMmap s done)
    (hl : Walk m (mmapAddr m mboot) (mmapCount m mboot) i l)
    (hroom : (done ++ regions m l).length ≤ 15) : ∃ t,
      MapState m L.mbootStaticMmap t (done ++ regions m l) ∧
      ∀ fuel, l.length < fuel → mapLoop mboot fuel i (mmapAddr m mboot + i) s = some t := by
  induction l generalizing i s done with
  | nil =>
    refine ⟨s, (List.append_nil done).symm ▸ h, fun fuel hf => ?_⟩
    obtain ⟨fuel, rfl⟩ : ∃ k, fuel = k + 1 := ⟨fuel - 1, by omega⟩
    rw [mapLoop, h.block ho, if_neg hl]
  | cons r l ih =>
    obtain ⟨hi, hr, hl⟩ := hl
    rw [regions_cons, ← List.append_assoc] at hroom ⊢
    have hlt : recordType m r = 1 → done.length < 15 := by
      intro ht
      rw [if_pos ht] at hroom
      simp only [List.length_append, List.length_singleton] at hroom
      omega
    obtain ⟨t, ht, hstep⟩ := mapLoop_step ho hflag h hi hr hlt
    obtain ⟨s', hs', hrun⟩ := ih ht hl hroom
    refine ⟨s', hs', fun fuel hf => ?_⟩
    obtain ⟨fuel, rfl⟩ : ∃ k, fuel = k + 1 := ⟨fuel - 1, by omega⟩
    rw [← hr, hstep, hrun fuel (by simpa using hf)]

/-- A run of the loop whose writes fit has walked the records to the end of the map. -/
theorem mapLoop_returns (h : MapState m L.mbootStaticMmap s done) (hdone : done.length ≤ 15)
    (hrun : mapLoop mboot fuel i (mmapAddr m mboot + i) s = some s')
    (hfit : ∀ w ∈ s'.writes, w.Fits) : ∃ l,
      Walk m (mmapAddr m mboot) (mmapCount m mboot) i l ∧ (done ++ regions m l).length ≤ 15 := by
  induction fuel generalizing i s done with
  | zero => exact absurd hrun (by simp [mapLoop])
  | succ fuel ih =>
    by_cases hi : i < mmapCount m mboot
    · obtain ⟨r, hr⟩ : ∃ r, r = mmapAddr m mboot + i := ⟨_, rfl⟩
      have hsep : Separate r 24 L.mbootStaticMmap 256 := hr ▸ ho.records hflag i hi
      have hroom : recordType m r = 1 → done.length < 15 := by
        intro ht
        by_contra hge
        obtain ⟨w, hw, hbad⟩ := addRegion_full (r := r) h (by omega)
        rw [mapLoop, h.block ho, if_pos hi, ← hr] at hrun
        simp only [(h.record hsep).2, if_pos ht] at hrun
        exact hbad (hfit w ((mapLoop_suffix hrun).subset hw))
      obtain ⟨t, ht, hstep⟩ := mapLoop_step ho hflag h hi hr hroom
      rw [← hr, hstep] at hrun
      obtain ⟨l, hl, hlen⟩ := ih ht (by
        split_ifs with hty
        · have := hroom hty
          simp only [List.length_append, List.length_singleton]
          omega
        · simpa using hdone) hrun
      refine ⟨r :: l, ⟨hi, hr, hl⟩, ?_⟩
      rw [regions_cons, ← List.append_assoc]
      exact hlen
    · exact ⟨[], hi, by simpa [regions] using hdone⟩

end MapLoop

section InitMap

variable {t : Machine} {fuel : ℕ}

/-- The map starts out empty. -/
theorem initMap_start (hfits : ∀ w ∈ s.writes, w.Fits) : MapState s.mem L.mbootStaticMmap
    ((({ s with mmap := L.mbootStaticMmap } : Machine).write64 .mmap 8 0).write64 .mmap 0 0) [] := by
  obtain ⟨s₀, hs₀⟩ : ∃ t : Machine, { s with mmap := L.mbootStaticMmap } = t := ⟨_, rfl⟩
  have hb : s₀.mmap = L.mbootStaticMmap := hs₀ ▸ rfl
  have hm : s₀.mem = s.mem := hs₀ ▸ rfl
  have hf : ∀ w ∈ s₀.writes, w.Fits := hs₀ ▸ hfits
  rw [hs₀]
  have hb' : (s₀.write64 .mmap 8 0).mmap = L.mbootStaticMmap := hb
  refine ⟨hb, fun x hx => ?_, ?_, ?_, ?_⟩
  · rw [write64_outside hb' (by decide) hx, write64_outside hb (by decide) hx, hm]
  · have hc : regionCount ((s₀.write64 .mmap 8 0).write64 .mmap 0 0).mem L.mbootStaticMmap = 0 := by
      rw [regionCount, readLE_write64_behind hb' (by decide) (by decide), readLE_write64_self hb]
    rw [mapEntries, hc]
    rfl
  · rw [mmapTotal_eq, readLE_write64_self hb']
    rfl
  · have hf' : ∀ w ∈ (s₀.write64 .mmap 8 0).writes, w.Fits := fits_write hf (by decide)
    exact fits_write hf' (by decide)

theorem initMap_eq (hflag : flags s.mem mboot &&& mbootFlagMmap ≠ 0) :
    initMap L fuel s mboot = mapLoop mboot fuel 0 (mmapAddr s.mem mboot + 0)
      ((({ s with mmap := L.mbootStaticMmap } : Machine).write64 .mmap 8 0).write64 .mmap 0 0) := by
  rw [initMap, if_pos hflag, show mmapAddr s.mem mboot + 0 = _ from BitVec.add_zero _]

theorem initMap_same (h : initMap L fuel s mboot = some t) :
    t.reads = s.reads ∧ t.objectList = s.objectList ∧ t.pinionImage = s.pinionImage := by
  rw [initMap] at h
  split_ifs at h with hflag
  · have hloop := mapLoop_same h
    exact hloop
  · rw [Option.some.inj h]
    exact ⟨rfl, rfl, rfl⟩

end InitMap

/-- init_multiboot comes to an end at a machine. -/
def Returns (L : Layout) (s : Machine) (mboot : Addr) (s' : Machine) : Prop :=
  ∃ n, ∀ fuel, n ≤ fuel → initMultiboot L fuel s mboot = some s'

/-- The records can be walked to the end of the map, and the regions among them fit. -/
def Records (m : Memory 32) (mboot : Addr) : Prop :=
  ∃ l, Walk m (mmapAddr m mboot) (mmapCount m mboot) 0 l ∧ (regions m l).length ≤ 15

theorem Walk.unique {a : Addr} {n i : BitVec 32} {l l' : List Addr} (h : Walk m a n i l)
    (h' : Walk m a n i l') : l = l' := by
  induction l generalizing i l' with
  | nil =>
    cases l' with
    | nil => rfl
    | cons r l' => exact absurd h'.1 h
  | cons r l ih =>
    cases l' with
    | nil => exact absurd h.1 h'
    | cons r' l' =>
      obtain ⟨-, rfl, h⟩ := h
      obtain ⟨-, rfl, h'⟩ := h'
      rw [ih h h']

/-- A map of at most 15 regions is read from the buffer alone. -/
theorem mapEntries_congr {m' : Memory 32} {b : Addr} (h : ∀ x, Within b 256 x → m' x = m x)
    (hcount : (regionCount m b).toNat ≤ 15) :
    mapEntries m' b = mapEntries m b ∧ mmapTotal m' b = mmapTotal m b := by
  have hf : ∀ o : Addr, o.toNat + 8 ≤ 256 → readLE m' (b + o) 8 = readLE m (b + o) 8 :=
    fun o ho => readLE_eq_of_within (by omega) fun x hx => h x (within_field o hx ho (by decide))
  have hc : regionCount m' b = regionCount m b := hf 8 (by decide)
  refine ⟨?_, ?_⟩
  · rw [mapEntries, mapEntries, hc]
    refine List.map_congr_left fun k hk => ?_
    have hk' := List.mem_range.mp hk
    have h16 : (BitVec.ofNat 32 (16 + 16 * k)).toNat = 16 + 16 * k := by
      rw [BitVec.toNat_ofNat]
      omega
    have h24 : (BitVec.ofNat 32 (24 + 16 * k)).toNat = 24 + 16 * k := by
      rw [BitVec.toNat_ofNat]
      omega
    rw [hf _ (by omega), hf _ (by omega)]
  · rw [mmapTotal_eq, mmapTotal_eq]
    exact hf 0 (by decide)

section Whole

variable (hfits : ∀ w ∈ s.writes, w.Fits) (ho : Outside L s.mem mboot)
include hfits ho

theorem initMap_total (hrec : flags s.mem mboot &&& mbootFlagMmap ≠ 0 → Records s.mem mboot) :
    ∃ t n, (∀ fuel, n ≤ fuel → initMap L fuel s mboot = some t) ∧ (∀ w ∈ t.writes, w.Fits) ∧
      (∀ x, ¬ Within L.mbootStaticMmap 256 x → t.mem x = s.mem x) ∧
      (flags s.mem mboot &&& mbootFlagMmap ≠ 0 → ∃ l,
        Walk s.mem (mmapAddr s.mem mboot) (mmapCount s.mem mboot) 0 l ∧
          (regions s.mem l).length ≤ 15 ∧ MapState s.mem L.mbootStaticMmap t (regions s.mem l)) := by
  by_cases hflag : flags s.mem mboot &&& mbootFlagMmap ≠ 0
  · obtain ⟨l, hl, hlen⟩ := hrec hflag
    obtain ⟨t, ht, hrun⟩ := mapLoop_walk ho hflag (initMap_start hfits) hl hlen
    refine ⟨t, l.length + 1, fun fuel hf => ?_, ht.fits, ht.outside, fun _ => ⟨l, hl, hlen, ht⟩⟩
    rw [initMap_eq hflag]
    exact hrun fuel hf
  · refine ⟨s, 0, fun fuel _ => ?_, hfits, fun _ _ => rfl, fun h => absurd h hflag⟩
    rw [initMap, if_neg hflag]

theorem initMultiboot_records (h : initMultiboot L fuel s mboot = some s')
    (hfit : ∀ w ∈ s'.writes, w.Fits) (hflag : flags s.mem mboot &&& mbootFlagMmap ≠ 0) :
    Records s.mem mboot := by
  obtain ⟨t, ht, hs'⟩ := Option.bind_eq_some_iff.mp h
  rw [initMap_eq hflag] at ht
  exact mapLoop_returns ho hflag (initMap_start hfits) (Nat.zero_le 15) ht fun w hw =>
    hfit w ((initModules_extends hs').writes.subset hw)

/-- A run whose writes fit has found a map and modules that fit. -/
theorem Returns.fitting (h : Returns L s mboot s') (hfit : ∀ w ∈ s'.writes, w.Fits) :
    (flags s.mem mboot &&& mbootFlagMmap ≠ 0 → Records s.mem mboot) ∧
      (flags s.mem mboot &&& mbootFlagMods ≠ 0 → modsCount s.mem mboot ≤ 3) := by
  obtain ⟨n, hrun⟩ := h
  have hrec := initMultiboot_records hfits ho (hrun n le_rfl) hfit
  refine ⟨hrec, fun hflag => ?_⟩
  obtain ⟨t, n', ht, -, hout, -⟩ := initMap_total hfits ho hrec
  obtain ⟨hflags, hcount, -, -, -⟩ :=
    block_congr (a := mboot) fun x hx => hout x (ho.blockMmap.not_within hx)
  have hlast := hrun (max n n') (le_max_left ..)
  rw [initMultiboot, ht _ (le_max_right ..), Option.bind_some] at hlast
  by_contra h3
  obtain ⟨w, hw, hbad⟩ := initModules_full ho.blockObjl (by rw [hflags]; exact hflag)
    (by rw [hcount]; simpa [BitVec.le_def] using h3) hlast
  exact hbad (hfit w hw)

end Whole

/-- The map is decoded, within the static buffers, if and only if the records lead to its end with
at most 15 regions and there are at most 3 modules. -/
theorem map_decoded_exactly (L : Layout) (s : Machine) (mboot : Addr)
    (hw : s.writes = []) (ho : Outside L s.mem mboot) :
    (∃ s', Returns L s mboot s' ∧ (∀ w ∈ s'.writes, w.Fits) ∧
      (flags s.mem mboot &&& mbootFlagMmap ≠ 0 →
        ∀ l, Walk s.mem (mmapAddr s.mem mboot) (mmapCount s.mem mboot) 0 l →
          mapEntries s'.mem s'.mmap = regions s.mem l ∧
            mmapTotal s'.mem s'.mmap = ((regions s.mem l).map Prod.snd).sum)) ↔
      (flags s.mem mboot &&& mbootFlagMmap ≠ 0 → Records s.mem mboot) ∧
        (flags s.mem mboot &&& mbootFlagMods ≠ 0 → modsCount s.mem mboot ≤ 3) := by
  have hfits : ∀ w ∈ s.writes, w.Fits := by
    rw [hw]
    exact fun w hw => absurd hw List.not_mem_nil
  constructor
  · rintro ⟨s', hrun, hfit, -⟩
    exact hrun.fitting hfits ho hfit
  · rintro ⟨hrec, hmods⟩
    obtain ⟨t, n, ht, htfits, hout, hmap⟩ := initMap_total hfits ho hrec
    obtain ⟨hflags, hcount, -, -, -⟩ :=
      block_congr (a := mboot) fun x hx => hout x (ho.blockMmap.not_within hx)
    obtain ⟨s', ⟨hmmap, hout', hfits'⟩, -, hrun⟩ := initModules_total ho.blockObjl (by
      rw [hflags, hcount]
      exact fun hflag => BitVec.le_def.mp (hmods hflag))
    refine ⟨s', ⟨n + (2 ^ 32 + 4), fun fuel hf => ?_⟩, fun w hw => (hfits' w hw).elim (htfits w) id,
      fun hflag l hl => ?_⟩
    · rw [initMultiboot, ht fuel (by omega), Option.bind_some, hrun fuel (by omega)]
    · obtain ⟨l', hl', hlen, hstate⟩ := hmap hflag
      obtain rfl := hl'.unique hl
      rw [hmmap, hstate.mmap]
      obtain ⟨he, ht⟩ := mapEntries_congr (b := L.mbootStaticMmap)
        (fun x hx => hout' x (L.apart.not_within hx)) (by rw [hstate.count]; exact hlen)
      rw [he, ht]
      exact ⟨hstate.entries, hstate.total⟩

section Sample

def sampleLayout : Layout where
  mbootStaticMmap := 0x100000
  mbootStaticObjl := 0x100100
  mmap_ne := by decide
  objl_ne := by decide
  mmap_below := by decide
  objl_below := by decide
  apart := by decide

/-- An information block at 0x9000 with a memory map of a single record of type 1. -/
def oneRecord : Memory 32 := fun x =>
  ([0x40, 0, 0, 0, 0, 0, 0, 0, 0, 0, 0, 0, 0, 0, 0, 0, 0, 0, 0, 0, 0, 0, 0, 0, 0, 0, 0, 0,
    0, 0, 0, 0, 0, 0, 0, 0, 0, 0, 0, 0, 0, 0, 0, 0, 24, 0, 0, 0, 0x00, 0x91, 0, 0] : List (BitVec 8))
    |>.getD (x - 0x9000).toNat <|
  ([20, 0, 0, 0, 0, 0, 0x10, 0, 0, 0, 0, 0, 0, 0, 0x70, 0, 0, 0, 0, 0, 1, 0, 0, 0] : List (BitVec 8))
    |>.getD (x - 0x9100).toNat 0

/-- An information block at 0x9000 with a list of four modules. -/
def fourModules : Memory 32 := fun x =>
  ([0x08, 0, 0, 0, 0, 0, 0, 0, 0, 0, 0, 0, 0, 0, 0, 0, 0, 0, 0, 0, 4, 0, 0, 0, 0x00, 0x91, 0, 0] :
    List (BitVec 8)).getD (x - 0x9000).toNat 0

/-- The record is decoded. -/
theorem map_decoded_exactly_one : ∃ s', Returns sampleLayout (.start oneRecord) 0x9000 s' ∧
    mapEntries s'.mem s'.mmap = [(0x100000, 0x700000)] := by
  have hcount : mmapCount oneRecord 0x9000 = 24 := by decide +kernel
  have haddr : mmapAddr oneRecord 0x9000 = 0x9100 := by decide +kernel
  have hwalk : Walk oneRecord 0x9100 24 0 [0x9100] := by
    refine ⟨by decide, by decide, ?_⟩
    change ¬ 0 + (recordSize oneRecord 0x9100 + 4) < 24
    decide +kernel
  have hregions : regions oneRecord [0x9100] = [(0x100000, 0x700000)] := by decide +kernel
  have ho : Outside sampleLayout oneRecord 0x9000 := by
    refine ⟨by decide, by decide, fun _ i hi => ?_⟩
    rw [hcount, BitVec.lt_def] at hi
    rw [haddr, Separate, BitVec.toNat_sub, BitVec.toNat_sub, BitVec.toNat_add]
    change i.toNat < 24 at hi
    change 24 ≤ (2 ^ 32 - (0x9100 + i.toNat) % 2 ^ 32 + 0x100000) % 2 ^ 32 ∧
      256 ≤ (2 ^ 32 - 0x100000 + (0x9100 + i.toNat) % 2 ^ 32) % 2 ^ 32
    omega
  have hrec : Records oneRecord 0x9000 := by
    refine ⟨[0x9100], ?_, ?_⟩
    · rw [hcount, haddr]
      exact hwalk
    · rw [hregions]
      decide
  obtain ⟨s', hrun, -, hmap⟩ := (map_decoded_exactly sampleLayout (.start oneRecord) 0x9000 rfl ho).mpr
    ⟨fun _ => hrec, fun h => absurd (by decide +kernel) h⟩
  refine ⟨s', hrun, ?_⟩
  have h := (hmap (by decide +kernel) [0x9100] (by
    change Walk oneRecord (mmapAddr oneRecord 0x9000) (mmapCount oneRecord 0x9000) 0 [0x9100]
    rw [hcount, haddr]
    exact hwalk)).1
  exact h.trans hregions

/-- The name of the fourth module does not fit. -/
theorem fourth_module_overflows : ¬ ∃ s', Returns sampleLayout (.start fourModules) 0x9000 s' ∧
    ∀ w ∈ s'.writes, w.Fits := by
  rintro ⟨s', ⟨n, hrun⟩, hfit⟩
  have hmap : initMap sampleLayout n (.start fourModules) 0x9000 = some (.start fourModules) :=
    if_neg (by decide +kernel)
  have hlast := hrun n le_rfl
  rw [initMultiboot, hmap, Option.bind_some] at hlast
  have hblock : Separate 0x9000 52 sampleLayout.mbootStaticObjl 256 := by decide
  obtain ⟨w, hw, hbad⟩ := initModules_full hblock (by decide +kernel) (by decide +kernel) hlast
  exact hbad (hfit w hw)

end Sample

end Unfold
end Pinion64
