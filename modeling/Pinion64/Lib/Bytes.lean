import Mathlib.Data.BitVec
import Mathlib.Tactic.Ring

/-! Byte-addressed memory: little-endian words, ranges of bytes, and what a write leaves alone.
Addresses are `w`-bit words and wrap around. -/
namespace Bytes

variable {w : ℕ}

/-- A memory: the byte at each address. -/
abbrev Memory (w : ℕ) := BitVec w → BitVec 8

/-- `x` is one of the `n` bytes from `a` on. -/
def Within (a : BitVec w) (n : ℕ) (x : BitVec w) : Prop := (x - a).toNat < n

instance (a : BitVec w) (n : ℕ) (x : BitVec w) : Decidable (Within a n x) :=
  inferInstanceAs (Decidable (_ < _))

/-- The `n` bytes from `a` on and the `k` bytes from `b` on have no byte in common. -/
def Separate (a : BitVec w) (n : ℕ) (b : BitVec w) (k : ℕ) : Prop :=
  n ≤ (b - a).toNat ∧ k ≤ (a - b).toNat

instance (a : BitVec w) (n : ℕ) (b : BitVec w) (k : ℕ) : Decidable (Separate a n b k) :=
  inferInstanceAs (Decidable (_ ∧ _))

theorem Separate.symm {a b : BitVec w} {n k : ℕ} (h : Separate a n b k) : Separate b k a n :=
  And.symm h

/-- Ranges that are apart share no byte. -/
theorem Separate.not_within {a b x : BitVec w} {n k : ℕ} (h : Separate a n b k) (ha : Within a n x) :
    ¬ Within b k x := by
  intro hb
  obtain ⟨h1, h2⟩ := h
  unfold Within at ha hb
  have hx : (x - a).toNat = ((x - b).toNat + (b - a).toNat) % 2 ^ w := by
    rw [← BitVec.toNat_add]
    congr 1
    ring
  have hneg : (a - b).toNat = (2 ^ w - (b - a).toNat) % 2 ^ w := by
    rw [← BitVec.toNat_neg]
    congr 1
    ring
  have hxb := (x - b).isLt
  have hba := (b - a).isLt
  by_cases hlt : (x - b).toNat + (b - a).toNat < 2 ^ w
  · rw [hx, Nat.mod_eq_of_lt hlt] at ha
    omega
  · rw [Nat.mod_eq_of_lt (by omega)] at hneg
    omega

/-- The byte that starts the `i`-th step into a range is in it. -/
theorem within_add (a : BitVec w) {n i : ℕ} (hi : i < n) (hw : i < 2 ^ w) :
    Within a n (a + BitVec.ofNat w i) := by
  unfold Within
  rw [show a + BitVec.ofNat w i - a = BitVec.ofNat w i by ring, BitVec.toNat_ofNat,
    Nat.mod_eq_of_lt hw]
  exact hi

/-- A byte of a part of a range. -/
theorem within_part {a b : BitVec w} {n l i : ℕ} (h : (a - b).toNat + n ≤ l) (hi : i < n) :
    Within b l (a + BitVec.ofNat w i) := by
  have hoffset : a + BitVec.ofNat w i - b = (a - b) + BitVec.ofNat w i := by ring
  have hle : (BitVec.ofNat w i).toNat ≤ i := by
    rw [BitVec.toNat_ofNat]
    exact Nat.mod_le _ _
  rw [Within, hoffset, BitVec.toNat_add]
  calc ((a - b).toNat + (BitVec.ofNat w i).toNat) % 2 ^ w
      ≤ (a - b).toNat + (BitVec.ofNat w i).toNat := Nat.mod_le _ _
    _ < l := by omega

/-- A field of `n` bytes at offset `o` of a record of `k` bytes. -/
theorem within_field {a x : BitVec w} {n k : ℕ} (o : BitVec w) (hx : Within (a + o) n x)
    (h : o.toNat + n ≤ k) (hk : k ≤ 2 ^ w) : Within a k x := by
  unfold Within at hx ⊢
  have he : (x - a).toNat = ((x - (a + o)).toNat + o.toNat) % 2 ^ w := by
    rw [← BitVec.toNat_add]
    congr 1
    ring
  rw [he, Nat.mod_eq_of_lt (by omega)]
  omega

/-- Two fields of a record, one behind the other. -/
theorem separate_fields (a : BitVec w) {o p : BitVec w} {n k : ℕ} (hn : 0 < n)
    (h : o.toNat + n ≤ p.toNat) (hk : p.toNat + k ≤ 2 ^ w) : Separate (a + o) n (a + p) k := by
  have h1 : a + p - (a + o) = p - o := by ring
  have h2 : a + o - (a + p) = o - p := by ring
  unfold Separate
  rw [h1, h2, BitVec.toNat_sub, BitVec.toNat_sub]
  constructor
  · rw [show 2 ^ w - o.toNat + p.toNat = p.toNat - o.toNat + 2 ^ w by omega, Nat.add_mod_right,
      Nat.mod_eq_of_lt (by omega)]
    omega
  · rw [Nat.mod_eq_of_lt (by omega)]
    omega

theorem next_add (a : BitVec w) (i : ℕ) :
    a + 1 + BitVec.ofNat w i = a + BitVec.ofNat w (i + 1) := by
  rw [BitVec.ofNat_add, BitVec.add_comm (BitVec.ofNat w i), ← BitVec.add_assoc]
  rfl

/-- The little-endian word in the `n` bytes from `a` on. -/
def readLE (m : Memory w) (a : BitVec w) : (n : ℕ) → BitVec (8 * n)
  | 0 => 0#0
  | n+1 => readLE m (a + 1) n ++ m a

/-- The `n` bytes from `a` on are those of `v`, the others as they were. -/
def writeLE (m : Memory w) (a : BitVec w) {n : ℕ} (v : BitVec (8 * n)) : Memory w := fun x =>
  if Within a n x then v.extractLsb' (8 * (x - a).toNat) 8 else m x

theorem writeLE_outside (m : Memory w) {a x : BitVec w} {n : ℕ} (v : BitVec (8 * n))
    (h : ¬ Within a n x) : writeLE m a v x = m x :=
  if_neg h

theorem readLE_congr {m m' : Memory w} {n : ℕ} {a : BitVec w}
    (h : ∀ i < n, m' (a + BitVec.ofNat w i) = m (a + BitVec.ofNat w i)) :
    readLE m' a n = readLE m a n := by
  induction n generalizing a with
  | zero => rfl
  | succ n ih =>
    have h0 := h 0 (Nat.succ_pos n)
    simp only [BitVec.add_zero] at h0
    have hs : readLE m' (a + 1) n = readLE m (a + 1) n := by
      apply ih
      intro i hi
      rw [next_add]
      exact h (i + 1) (by omega)
    unfold readLE
    rw [hs, h0]

/-- Memories that agree on a range hold the same word there. -/
theorem readLE_eq_of_within {m m' : Memory w} {n : ℕ} {a : BitVec w} (hw : n ≤ 2 ^ w)
    (h : ∀ x, Within a n x → m' x = m x) : readLE m' a n = readLE m a n :=
  readLE_congr fun i hi => h _ (within_add a hi (by omega))

/-- The word whose bytes are given is read back. -/
theorem readLE_of_bytes {m : Memory w} {n : ℕ} {a : BitVec w} (v : BitVec (8 * n))
    (h : ∀ i < n, m (a + BitVec.ofNat w i) = v.extractLsb' (8 * i) 8) : readLE m a n = v := by
  induction n generalizing a with
  | zero => exact Subsingleton.elim (α := BitVec 0) _ _
  | succ n ih =>
    have h0 := h 0 (Nat.succ_pos n)
    simp only [BitVec.add_zero, Nat.mul_zero] at h0
    have hs : readLE m (a + 1) n = v.extractLsb' 8 (8 * n) := by
      apply ih
      intro i hi
      rw [next_add, h (i + 1) (by omega)]
      apply BitVec.eq_of_getLsbD_eq
      intro j hj
      simp only [BitVec.getLsbD_extractLsb', hj, decide_true, Bool.true_and]
      rw [show 8 * (i + 1) + j = 8 + (8 * i + j) by ring, decide_eq_true (by omega), Bool.true_and]
    unfold readLE
    rw [hs, h0]
    apply BitVec.eq_of_getLsbD_eq
    intro j hj
    rw [BitVec.getLsbD_append]
    split
    · rename_i h8
      simp only [BitVec.getLsbD_extractLsb', h8, decide_true, Bool.true_and, Nat.zero_add]
    · rename_i h8
      simp only [BitVec.getLsbD_extractLsb']
      rw [decide_eq_true (by omega), Bool.true_and]
      congr 1
      omega

theorem readLE_writeLE (m : Memory w) (a : BitVec w) {n : ℕ} (v : BitVec (8 * n)) (hw : n ≤ 2 ^ w) :
    readLE (writeLE m a v) a n = v := by
  apply readLE_of_bytes
  intro i hi
  unfold writeLE
  rw [if_pos (within_add a hi (by omega)), show a + BitVec.ofNat w i - a = BitVec.ofNat w i by ring,
    BitVec.toNat_ofNat, Nat.mod_eq_of_lt (by omega)]

/-- A write does not change a word that is apart from it. -/
theorem readLE_writeLE_apart (m : Memory w) {a b : BitVec w} {n k : ℕ} (v : BitVec (8 * n))
    (hw : k ≤ 2 ^ w) (h : Separate a n b k) : readLE (writeLE m a v) b k = readLE m b k :=
  readLE_eq_of_within hw fun _ hx => writeLE_outside m v (h.symm.not_within hx)

theorem writeLE_writeLE (m : Memory w) (a : BitVec w) {n : ℕ} (u v : BitVec (8 * n)) :
    writeLE (writeLE m a u) a v = writeLE m a v := by
  funext x
  unfold writeLE
  split_ifs <;> rfl

/-- The bytes of the word that is read. -/
theorem extractLsb'_readLE (m : Memory w) (a : BitVec w) {n i : ℕ} (hi : i < n) :
    (readLE m a n).extractLsb' (8 * i) 8 = m (a + BitVec.ofNat w i) := by
  induction n generalizing a i with
  | zero => exact absurd hi (Nat.not_lt_zero i)
  | succ n ih =>
    unfold readLE
    apply BitVec.eq_of_getLsbD_eq
    intro j hj
    rw [BitVec.getLsbD_extractLsb', BitVec.getLsbD_append, decide_eq_true hj, Bool.true_and]
    cases i with
    | zero =>
      rw [if_pos (by omega), Nat.mul_zero, Nat.zero_add]
      simp
    | succ i =>
      have hrest := congrArg (fun v => v.getLsbD j) (ih (a + 1) (Nat.lt_of_succ_lt_succ hi))
      simp only [BitVec.getLsbD_extractLsb', decide_eq_true hj, Bool.true_and, next_add] at hrest
      rw [if_neg (by omega), ← hrest]
      congr 1
      omega

/-- A word is written back. -/
theorem writeLE_readLE (m : Memory w) (a : BitVec w) {n : ℕ} : writeLE m a (readLE m a n) = m := by
  funext x
  unfold writeLE
  split_ifs with hx
  · rw [extractLsb'_readLE m a hx, BitVec.ofNat_toNat, BitVec.setWidth_eq]
    congr 1
    ring
  · rfl

/-- The memory in which the `n` bytes from the address `d` on are those of `f`. -/
def fill (m : Memory w) (d n : ℕ) (f : ℕ → BitVec 8) : Memory w := fun x =>
  if d ≤ x.toNat ∧ x.toNat < d + n then f (x.toNat - d) else m x

section Fill
variable {m : Memory w} {d n : ℕ} {f : ℕ → BitVec 8} {x : BitVec w}

theorem fill_zero : fill m d 0 f = m := by
  funext x
  exact if_neg (by omega)

theorem fill_inside (h : d ≤ x.toNat) (hn : x.toNat < d + n) :
    fill m d n f x = f (x.toNat - d) :=
  if_pos ⟨h, hn⟩

theorem fill_outside (h : ¬ (d ≤ x.toNat ∧ x.toNat < d + n)) : fill m d n f x = m x :=
  if_neg h

/-- A fill goes on by one byte at its end. -/
theorem update_fill (hd : d + n < 2 ^ w) :
    Function.update (fill m d n f) (BitVec.ofNat w (d + n)) (f n) = fill m d (n + 1) f := by
  funext x
  have hx : (BitVec.ofNat w (d + n)).toNat = d + n := by
    rw [BitVec.toNat_ofNat, Nat.mod_eq_of_lt hd]
  by_cases he : x = BitVec.ofNat w (d + n)
  · subst he
    rw [Function.update_self, fill_inside (by omega) (by omega), hx, Nat.add_sub_cancel_left]
  · have hne : x.toNat ≠ d + n := fun hc => he (BitVec.eq_of_toNat_eq (hc.trans hx.symm))
    rw [Function.update_of_ne he]
    exact if_congr (by omega) rfl rfl

end Fill

/-- The memories agree, but for the bytes at the offsets from `lo` up to `hi` from `a`. -/
def SameBut (a : BitVec w) (lo hi : ℕ) (m m' : Memory w) : Prop :=
  ∀ x, ¬ (lo ≤ (x - a).toNat ∧ (x - a).toNat < hi) → m' x = m x

section SameBut
variable {m m' m'' : Memory w} {a o x : BitVec w} {lo hi n k : ℕ}

/-- The bytes of a field, by their offsets. -/
theorem within_offset (h : o.toNat + n ≤ 2 ^ w) :
    Within (a + o) n x ↔ o.toNat ≤ (x - a).toNat ∧ (x - a).toNat < o.toNat + n := by
  have he : x - (a + o) = x - a - o := by ring
  have hlt := (x - a).isLt
  rw [Within, he, BitVec.toNat_sub]
  by_cases hle : o.toNat ≤ (x - a).toNat
  · rw [show 2 ^ w - o.toNat + (x - a).toNat = (x - a).toNat - o.toNat + 2 ^ w by omega,
      Nat.add_mod_right, Nat.mod_eq_of_lt (by omega)]
    omega
  · rw [Nat.mod_eq_of_lt (by omega)]
    omega

theorem SameBut.refl : SameBut a lo hi m m := fun _ _ => rfl

theorem SameBut.trans (h : SameBut a lo hi m m') (h' : SameBut a lo hi m' m'') :
    SameBut a lo hi m m'' :=
  fun x hx => (h' x hx).trans (h x hx)

theorem SameBut.mono (h : SameBut a lo hi m m') {lo' hi' : ℕ} (hlo : lo' ≤ lo) (hhi : hi ≤ hi') :
    SameBut a lo' hi' m m' :=
  fun x hx => h x fun hc => hx ⟨by omega, by omega⟩

/-- The change of a field, seen from the record. -/
theorem SameBut.field (h : SameBut (a + o) lo hi m m') (ho : o.toNat + hi ≤ 2 ^ w) :
    SameBut a (o.toNat + lo) (o.toNat + hi) m m' := by
  refine fun x hx => h x fun hc => hx ?_
  have he : (x - a).toNat = ((x - (a + o)).toNat + o.toNat) % 2 ^ w := by
    rw [← BitVec.toNat_add]
    congr 1
    ring
  rw [he, Nat.mod_eq_of_lt (by omega)]
  omega

theorem sameBut_writeLE {v : BitVec (8 * n)} (h : o.toNat + n ≤ 2 ^ w) :
    SameBut a o.toNat (o.toNat + n) m (writeLE m (a + o) v) :=
  fun _ hx => writeLE_outside m v fun hw => hx ((within_offset h).mp hw)

/-- A field apart from the change. -/
theorem SameBut.readLE (h : SameBut a lo hi m m') (hk : o.toNat + k ≤ 2 ^ w)
    (ho : o.toNat + k ≤ lo ∨ hi ≤ o.toNat) : readLE m' (a + o) k = readLE m (a + o) k := by
  refine readLE_eq_of_within (by omega) fun x hx => h x fun hc => ?_
  have hin := (within_offset hk).mp hx
  omega

theorem SameBut.byte (h : SameBut a lo hi m m') (ho : o.toNat < lo ∨ hi ≤ o.toNat) :
    m' (a + o) = m (a + o) := by
  refine h _ fun hc => ?_
  have he : a + o - a = o := by ring
  rw [he] at hc
  omega

end SameBut

/-- A part of the bytes that have just been written. -/
theorem readLE_writeLE_part (m : Memory w) (a : BitVec w) {n : ℕ} (v : BitVec (8 * n)) {i k : ℕ}
    (h : i + k ≤ n) (hw : n ≤ 2 ^ w) :
    readLE (writeLE m a v) (a + BitVec.ofNat w i) k = v.extractLsb' (8 * i) (8 * k) := by
  apply readLE_of_bytes
  intro j hj
  have he : a + BitVec.ofNat w i + BitVec.ofNat w j = a + BitVec.ofNat w (i + j) := by
    rw [BitVec.ofNat_add, BitVec.add_assoc]
  have hoffset : (a + BitVec.ofNat w (i + j) - a).toNat = i + j := by
    rw [show a + BitVec.ofNat w (i + j) - a = BitVec.ofNat w (i + j) by ring, BitVec.toNat_ofNat,
      Nat.mod_eq_of_lt (by omega)]
  rw [he, writeLE, if_pos (within_add a (by omega) (by omega)), hoffset]
  apply BitVec.eq_of_getLsbD_eq
  intro b hb
  simp only [BitVec.getLsbD_extractLsb', hb, decide_true, Bool.true_and]
  rw [decide_eq_true (by omega), Bool.true_and]
  congr 1
  ring

/-- The fields at two offsets of a record have no byte in common. -/
def Beside (n : ℕ) (o : BitVec w) (k : ℕ) (o' : BitVec w) : Prop :=
  o.toNat + n ≤ o'.toNat ∨ o'.toNat + k ≤ o.toNat

instance (n : ℕ) (o : BitVec w) (k : ℕ) (o' : BitVec w) : Decidable (Beside n o k o') :=
  inferInstanceAs (Decidable (_ ∨ _))

theorem Beside.symm {n k : ℕ} {o o' : BitVec w} (h : Beside n o k o') : Beside k o' n o :=
  Or.symm h

/-- Fields of `n` bytes written one after the other at their offsets from `a`. -/
def writeAll {n : ℕ} (m : Memory w) (a : BitVec w) : List (BitVec w × BitVec (8 * n)) → Memory w
  | [] => m
  | x :: l => writeAll (writeLE m (a + x.1) x.2) a l

section WriteAll
variable {m : Memory w} {a o : BitVec w} {n k i lo hi : ℕ} {l l' : List (BitVec w × BitVec (8 * n))}
  {v : BitVec (8 * n)}

theorem sameBut_writeAll (h : ∀ o ∈ l.map Prod.fst, lo ≤ o.toNat ∧ o.toNat + n ≤ hi)
    (hw : hi ≤ 2 ^ w) : SameBut a lo hi m (writeAll m a l) := by
  induction l generalizing m with
  | nil => exact .refl
  | cons x l ih =>
    obtain ⟨h1, h2⟩ := h x.1 (List.mem_cons_self ..)
    have hhead : SameBut a lo hi m (writeLE m (a + x.1) x.2) :=
      (sameBut_writeLE (by omega)).mono h1 h2
    exact hhead.trans (ih fun o ho => h o (List.mem_cons_of_mem _ ho))

/-- A field apart from all that are written. -/
theorem readLE_writeAll_apart (h : ∀ o' ∈ l.map Prod.fst, o'.toNat + n ≤ 2 ^ w ∧ Beside n o' k o)
    (hk : o.toNat + k ≤ 2 ^ w) : readLE (writeAll m a l) (a + o) k = readLE m (a + o) k := by
  induction l generalizing m with
  | nil => rfl
  | cons x l ih =>
    obtain ⟨h1, h2⟩ := h x.1 (List.mem_cons_self ..)
    exact (ih fun o' ho => h o' (List.mem_cons_of_mem _ ho)).trans
      ((sameBut_writeLE h1).readLE hk h2.symm)

/-- A part of a field that is written, the fields being apart from each other. -/
theorem readLE_writeAll_part (hv : (o, v) ∈ l) (hl : (l.map Prod.fst).Pairwise (Beside n · n))
    (hw : ∀ o' ∈ l.map Prod.fst, o'.toNat + n ≤ 2 ^ w) (hi : i + k ≤ n) :
    readLE (writeAll m a l) (a + o + BitVec.ofNat w i) k = v.extractLsb' (8 * i) (8 * k) := by
  induction l generalizing m with
  | nil => exact absurd hv List.not_mem_nil
  | cons x l ih =>
    obtain ⟨hx, hl⟩ := List.pairwise_cons.mp hl
    have hrest := fun o' ho => hw o' (List.mem_cons_of_mem _ ho)
    rcases List.mem_cons.mp hv with rfl | hv
    · have hfirst := hw o (List.mem_cons_self ..)
      have hin : (o + BitVec.ofNat w i).toNat = o.toNat + i ∨ k = 0 := by
        by_cases hk : k = 0
        · exact Or.inr hk
        · left
          rw [BitVec.toNat_add, BitVec.toNat_ofNat, Nat.add_mod_mod, Nat.mod_eq_of_lt (by omega)]
      rcases hin with hin | rfl
      · have hsame : readLE (writeAll (writeLE m (a + o) v) a l) (a + (o + BitVec.ofNat w i)) k =
            readLE (writeLE m (a + o) v) (a + (o + BitVec.ofNat w i)) k := by
          refine readLE_writeAll_apart (fun o' ho => ⟨hrest o' ho, ?_⟩) (by omega)
          have hapart : Beside n o n o' := hx o' ho
          rcases hapart with hc | hc
          · exact Or.inr (by omega)
          · exact Or.inl (by omega)
        rw [← BitVec.add_assoc] at hsame
        exact hsame.trans (readLE_writeLE_part m (a + o) v hi (by omega))
      · exact Subsingleton.elim (α := BitVec 0) _ _
    · exact ih hv hl hrest

theorem readLE_writeAll (hv : (o, v) ∈ l) (hl : (l.map Prod.fst).Pairwise (Beside n · n))
    (hw : ∀ o' ∈ l.map Prod.fst, o'.toNat + n ≤ 2 ^ w) :
    readLE (writeAll m a l) (a + o) n = v := by
  have h := readLE_writeAll_part (m := m) (a := a) (i := 0) (k := n) hv hl hw (by omega)
  rw [BitVec.add_zero] at h
  rw [h]
  simp

end WriteAll

section Stored
variable {m : Memory w} {a : BitVec w} {b : BitVec 8} {bs cs : List (BitVec 8)} {n : ℕ}

/-- The bytes of a word, the lowest first. -/
def wordBytes (v : BitVec (8 * n)) : List (BitVec 8) :=
  (List.range n).map fun i => v.extractLsb' (8 * i) 8

/-- The list stands in memory from `a` on. -/
def Stored (m : Memory w) (a : BitVec w) (bs : List (BitVec 8)) : Prop :=
  ∀ i b, bs[i]? = some b → m (a + BitVec.ofNat w i) = b

@[simp] theorem length_wordBytes (v : BitVec (8 * n)) : (wordBytes v).length = n := by
  rw [wordBytes, List.length_map, List.length_range]

theorem stored_nil : Stored m a [] := fun _ _ h => by cases h

theorem stored_cons : Stored m a (b :: bs) ↔ m a = b ∧ Stored m (a + 1) bs := by
  constructor
  · intro h
    refine ⟨?_, fun i c hc => ?_⟩
    · have h0 := h 0 b rfl
      rwa [BitVec.add_zero] at h0
    · rw [next_add]
      exact h (i + 1) c hc
  · rintro ⟨h0, hs⟩ (_ | i) c hc
    · rw [BitVec.add_zero, h0]
      exact Option.some.inj hc
    · rw [← next_add]
      exact hs i c hc

theorem stored_append :
    Stored m a (bs ++ cs) ↔ Stored m a bs ∧ Stored m (a + BitVec.ofNat w bs.length) cs := by
  induction bs generalizing a with
  | nil =>
    rw [List.nil_append, List.length_nil, BitVec.add_zero]
    exact (and_iff_right stored_nil).symm
  | cons b bs ih =>
    rw [List.cons_append, stored_cons, stored_cons, ih, List.length_cons, next_add, and_assoc]

theorem stored_wordBytes {v : BitVec (8 * n)} : Stored m a (wordBytes v) ↔ readLE m a n = v := by
  constructor
  · intro h
    refine readLE_of_bytes v fun i hi => h i _ ?_
    rw [wordBytes, List.getElem?_map, List.getElem?_range hi]
    rfl
  · rintro rfl i b hb
    rw [wordBytes, List.getElem?_map, Option.map_eq_some_iff] at hb
    obtain ⟨j, hj, rfl⟩ := hb
    obtain ⟨hi, rfl⟩ := List.getElem?_eq_some_iff.mp hj
    rw [List.getElem_range]
    rw [List.length_range] at hi
    exact (extractLsb'_readLE m a hi).symm

theorem stored_range : Stored m a ((List.range n).map fun i => m (a + BitVec.ofNat w i)) := by
  intro i b hb
  rw [List.getElem?_map, Option.map_eq_some_iff] at hb
  obtain ⟨j, hj, rfl⟩ := hb
  obtain ⟨-, rfl⟩ := List.getElem?_eq_some_iff.mp hj
  rw [List.getElem_range]

theorem Stored.range (h : Stored m a bs) :
    (List.range bs.length).map (fun i => m (a + BitVec.ofNat w i)) = bs := by
  refine List.ext_getElem (by rw [List.length_map, List.length_range]) fun i _ hi => ?_
  rw [List.getElem_map, List.getElem_range]
  exact h i _ (List.getElem?_eq_getElem hi)

end Stored

end Bytes
