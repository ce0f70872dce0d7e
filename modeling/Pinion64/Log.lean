import Pinion64.ConfigRead
import Mathlib.Data.Nat.Digits.Lemmas

/-! Messages as log.c writes them, and what the reader of a line can tell of its arguments. -/
namespace Pinion64

def percent : Byte := 0x25
def minus : Byte := 0x2D

/-- An argument as the caller passes it: an int, a 64-bit word, or a string, none for NULL. -/
inductive LogArg
  | int (n : BitVec 32)
  | word (p : BitVec 64)
  | str (s : Option (List Byte))
  deriving DecidableEq

section Format

def digit (k : ℕ) : Byte := (bytes "0123456789ABCDEF").getD k nul

def logputs : Option (List Byte) → List Byte
  | none => bytes "(null)"
  | some s => s

/-- The digits of the buffer, the last one first, where `i` of its bytes are free. -/
def logputdFrom : ℕ → ℕ → List Byte
  | 0, _ => []
  | i+1, n => if n = 0 then [] else digit (n % 10) :: logputdFrom i (n / 10)

def logputdAbs (n : ℕ) : List Byte := if n = 0 then [digit 0] else (logputdFrom 10 n).reverse

/-- The least int has no negative: what the code does with it is undefined. -/
def logputd (n : BitVec 32) : Option (List Byte) :=
  if n.slt 0 then if -n = n then none else some (minus :: logputdAbs (-n).toNat)
  else some (logputdAbs n.toNat)

/-- The hexadecimal digits of a word, the first one first. -/
def putHex (k : ℕ) (x : BitVec (4 * k)) : List Byte :=
  (List.range k).map fun i => digit ((x >>> (4 * (k - 1) - i * 4)) &&& 0xF).toNat

def logputx (x : BitVec 32) : List Byte := putHex 8 x

def logputp (p : BitVec 64) : List Byte := putHex 16 p

/-- What a directive writes, and the arguments it leaves. The copy of the loader has no %p. -/
def logDirective (pointers : Bool) (c : Byte) (args : List LogArg) : Option (List Byte × List LogArg) :=
  if c = 0x73 then match args with
    | .str s :: rest => some (logputs s, rest)
    | _ => none
  else if c = 0x63 then match args with
    | .int n :: rest => some ([n.setWidth 8], rest)
    | _ => none
  else if c = 0x64 then match args with
    | .int n :: rest => (logputd n).map (·, rest)
    | _ => none
  else if c = 0x78 then match args with
    | .int n :: rest => some (logputx n, rest)
    | _ => none
  else if c = 0x70 ∧ pointers then match args with
    | .word p :: rest => some (logputp p, rest)
    | _ => none
  else if c = percent then some ([percent], args)
  else some ([], args)

/-- The loop over the format, which is given without its NUL. -/
def logFormat (pointers : Bool) : List Byte → List LogArg → Option (List Byte)
  | [], _ => some []
  | [c], _ => some [c]
  | c :: d :: fmt, args =>
    if c = percent then
      (logDirective pointers d args).bind fun r => (logFormat pointers fmt r.2).map (r.1 ++ ·)
    else (logFormat pointers (d :: fmt) args).map (c :: ·)

def logDebug : ℤ := 2

def logPrefix (level : ℤ) : List Byte :=
  if level = 0 then bytes "[info]  "
  else if level = 1 then bytes "[init]  "
  else if level = 2 then bytes "[debug] "
  else if level = 3 then bytes "[error] "
  else []

/-- The bytes that a call writes, none where its behaviour is undefined. -/
def log (pointers : Bool) (level : ℤ) (fmt : List Byte) (args : List LogArg) : Option (List Byte) :=
  if level < logDebug then some []
  else (logFormat pointers fmt args).map fun t => logPrefix level ++ t ++ [newline]

end Format

section Numbers

theorem hexDigit_digit : ∀ k < 16, hexDigit (digit k) = some k := by decide

theorem putHex_eq (k : ℕ) (x : BitVec (4 * k)) :
    putHex k x = (List.range k).map fun i => digit (x.toNat / 16 ^ (k - 1 - i) % 16) := by
  refine List.map_congr_left fun i hi => congrArg digit ?_
  have hk : i < k := List.mem_range.mp hi
  have hsub : 4 * (k - 1) - i * 4 = 4 * (k - 1 - i) := by omega
  have hmask : (0xF : BitVec (4 * k)).toNat = 2 ^ 4 - 1 := by
    change 15 % 2 ^ (4 * k) = 15
    refine Nat.mod_eq_of_lt ?_
    calc 15 < 2 ^ 4 := by decide
      _ ≤ 2 ^ (4 * k) := Nat.pow_le_pow_right (by decide) (by omega)
  rw [BitVec.toNat_and, hmask, Nat.and_two_pow_sub_one_eq_mod, BitVec.toNat_ushiftRight,
    Nat.shiftRight_eq_div_pow, hsub, pow_mul]
  rfl

theorem hexNumberFrom_digits (m n k : ℕ) :
    hexNumberFrom m ((List.range k).map fun i => digit (n / 16 ^ (k - 1 - i) % 16)) =
      some (16 ^ k * m + n % 16 ^ k) := by
  induction k generalizing m with
  | zero => simp [hexNumberFrom, Nat.mod_one]
  | succ k ih =>
    have htail : ((List.range k).map Nat.succ).map (fun i => digit (n / 16 ^ (k + 1 - 1 - i) % 16)) =
        (List.range k).map fun i => digit (n / 16 ^ (k - 1 - i) % 16) := by
      rw [List.map_map]
      refine List.map_congr_left fun i _ => ?_
      rw [Function.comp_apply, show k + 1 - 1 - i.succ = k - 1 - i by omega]
    rw [List.range_succ_eq_map, List.map_cons, htail, hexNumberFrom, Nat.sub_zero,
      Nat.add_sub_cancel, hexDigit_digit _ (Nat.mod_lt _ (by decide)), Option.bind_some, ih,
      Nat.mod_pow_succ, pow_succ]
    congr 1
    ring

/-- A word is read back from its digits. -/
theorem hexNumber_putHex (k : ℕ) (x : BitVec (4 * k)) : hexNumber (putHex k x) = some x.toNat := by
  rw [putHex_eq, hexNumber, hexNumberFrom_digits, Nat.mul_zero, Nat.zero_add, Nat.mod_eq_of_lt]
  have h := x.isLt
  rwa [pow_mul] at h

theorem putHex_length (k : ℕ) (x : BitVec (4 * k)) : (putHex k x).length = k := by
  rw [putHex, List.length_map, List.length_range]

theorem putHex_injective {k : ℕ} {x y : BitVec (4 * k)} (h : putHex k x = putHex k y) : x = y := by
  have hx := hexNumber_putHex k x
  rw [h, hexNumber_putHex] at hx
  exact BitVec.eq_of_toNat_eq (Option.some.inj hx).symm

theorem logputdFrom_eq {i n : ℕ} (h : n < 10 ^ i) : logputdFrom i n = (Nat.digits 10 n).map digit := by
  induction i generalizing n with
  | zero =>
    obtain rfl : n = 0 := by omega
    rfl
  | succ i ih =>
    rw [logputdFrom]
    split_ifs with h0
    · rw [h0]
      rfl
    · rw [Nat.digits_def' (by decide) (Nat.pos_of_ne_zero h0), List.map_cons, ih (by omega)]

/-- The number that decimal digits stand for. -/
def decimal (u : List Byte) : ℕ := Nat.ofDigits 10 (u.reverse.map fun c => (hexDigit c).getD 0)

theorem decimal_logputdAbs {n : ℕ} (h : n < 10 ^ 10) : decimal (logputdAbs n) = n := by
  have hread : ((Nat.digits 10 n).map digit).map (fun c => (hexDigit c).getD 0) = Nat.digits 10 n := by
    rw [List.map_map]
    conv_rhs => rw [← List.map_id (Nat.digits 10 n)]
    refine List.map_congr_left fun k hk => ?_
    have hlt : k < 10 := Nat.digits_lt_base (by decide) hk
    rw [Function.comp_apply, hexDigit_digit k (by omega)]
    rfl
  rw [decimal, logputdAbs]
  split_ifs with h0
  · rw [h0]
    decide
  · rw [List.reverse_reverse, logputdFrom_eq h, hread, Nat.ofDigits_digits]

/-- The characters of a decimal number. -/
def DecimalChar (c : Byte) : Prop := c = minus ∨ 0x30 ≤ c ∧ c ≤ 0x39

instance (c : Byte) : Decidable (DecimalChar c) := inferInstanceAs (Decidable (_ ∨ _))

theorem digit_decimal : ∀ k < 10, DecimalChar (digit k) ∧ digit k ≠ minus := by decide

theorem logputdAbs_digits {n : ℕ} (h : n < 10 ^ 10) {c : Byte} (hc : c ∈ logputdAbs n) :
    DecimalChar c ∧ c ≠ minus := by
  rw [logputdAbs] at hc
  split_ifs at hc
  · rw [List.mem_singleton.mp hc]
    exact digit_decimal 0 (by decide)
  · rw [List.mem_reverse, logputdFrom_eq h, List.mem_map] at hc
    obtain ⟨k, hk, rfl⟩ := hc
    exact digit_decimal k (Nat.digits_lt_base (by decide) hk)

theorem int_lt (n : BitVec 32) : n.toNat < 10 ^ 10 := n.isLt.trans (by decide)

theorem logputd_cases {n : BitVec 32} {u : List Byte} (h : logputd n = some u) :
    (n.slt 0 = true ∧ u = minus :: logputdAbs (-n).toNat) ∨
      (n.slt 0 = false ∧ u = logputdAbs n.toNat) := by
  rw [logputd] at h
  split_ifs at h with hneg
  · exact Or.inl ⟨hneg, (Option.some.inj h).symm⟩
  · exact Or.inr ⟨Bool.eq_false_iff.mpr hneg, (Option.some.inj h).symm⟩

theorem logputd_chars {n : BitVec 32} {u : List Byte} (h : logputd n = some u) :
    ∀ c ∈ u, DecimalChar c := by
  intro c hc
  rcases logputd_cases h with ⟨-, rfl⟩ | ⟨-, rfl⟩
  · rcases List.mem_cons.mp hc with rfl | hc
    · exact Or.inl rfl
    · exact (logputdAbs_digits (int_lt _) hc).1
  · exact (logputdAbs_digits (int_lt _) hc).1

theorem logputdAbs_ne {n : BitVec 32} {v : List Byte} : minus :: v ≠ logputdAbs n.toNat := fun h =>
  (logputdAbs_digits (int_lt n) (h ▸ List.mem_cons_self)).2 rfl

/-- Different numbers are written differently. -/
theorem logputd_injective {n m : BitVec 32} {u : List Byte} (hn : logputd n = some u)
    (hm : logputd m = some u) : n = m := by
  rcases logputd_cases hn with ⟨-, rfl⟩ | ⟨-, rfl⟩ <;>
    rcases logputd_cases hm with ⟨-, he⟩ | ⟨-, he⟩
  · have h := congrArg decimal (List.cons.inj he).2
    rw [decimal_logputdAbs (int_lt _), decimal_logputdAbs (int_lt _)] at h
    exact BitVec.neg_inj.mp (BitVec.eq_of_toNat_eq h)
  · exact absurd he logputdAbs_ne
  · exact absurd he.symm logputdAbs_ne
  · have h := congrArg decimal he
    rw [decimal_logputdAbs (int_lt _), decimal_logputdAbs (int_lt _)] at h
    exact BitVec.eq_of_toNat_eq h

end Numbers

section Tokens

/-- What a format consists of. -/
inductive LogToken
  | lit (c : Byte)
  | str
  | chr
  | dec
  | hex
  | ptr
  deriving DecidableEq

def directiveToken (pointers : Bool) (d : Byte) : Option LogToken :=
  if d = 0x73 then some .str
  else if d = 0x63 then some .chr
  else if d = 0x64 then some .dec
  else if d = 0x78 then some .hex
  else if d = 0x70 ∧ pointers then some .ptr
  else if d = percent then some (.lit percent)
  else none

def tokens (pointers : Bool) : List Byte → List LogToken
  | [] => []
  | [c] => [.lit c]
  | c :: d :: fmt =>
    if c = percent then (directiveToken pointers d).toList ++ tokens pointers fmt
    else .lit c :: tokens pointers (d :: fmt)

/-- An argument as a directive writes it. -/
def LogToken.put : LogToken → LogArg → Option (List Byte)
  | .str, .str s => some (logputs s)
  | .chr, .int n => some [n.setWidth 8]
  | .dec, .int n => logputd n
  | .hex, .int n => some (logputx n)
  | .ptr, .word p => some (logputp p)
  | _, _ => none

/-- What a token writes, and the arguments it leaves. -/
def LogToken.puts : LogToken → List LogArg → Option (List Byte × List LogArg)
  | .lit c, args => some ([c], args)
  | _, [] => none
  | t, a :: args => (t.put a).map (·, args)

def putTokens : List LogToken → List LogArg → Option (List Byte)
  | [], _ => some []
  | t :: ts, args => (t.puts args).bind fun r => (putTokens ts r.2).map (r.1 ++ ·)

theorem logDirective_eq (pointers : Bool) (d : Byte) (args : List LogArg) :
    logDirective pointers d args =
      (directiveToken pointers d).elim (some ([], args)) fun t => t.puts args := by
  unfold logDirective directiveToken
  split_ifs <;> rcases args with _ | ⟨_ | _ | _, rest⟩ <;> rfl

theorem logFormat_eq (pointers : Bool) (fmt : List Byte) (args : List LogArg) :
    logFormat pointers fmt args = putTokens (tokens pointers fmt) args := by
  fun_induction logFormat pointers fmt args with
  | case1 => rfl
  | case2 => rfl
  | case3 d fmt args ih =>
    rw [tokens, if_pos rfl, logDirective_eq]
    cases directiveToken pointers d with
    | none => simp [ih]
    | some t =>
      rw [Option.elim_some, Option.toList_some, List.singleton_append, putTokens]
      exact congrArg _ (funext fun r => by rw [ih])
  | case4 c d fmt args hc ih =>
    rw [tokens, if_neg hc, putTokens, ih]
    rfl

/-- The byte that the text goes on with, where the format tells it. -/
def nextByte : List LogToken → Option Byte
  | [] => some newline
  | .lit c :: _ => some c
  | _ => none

theorem putTokens_head {ts : List LogToken} {args : List LogArg} {r : List Byte} {c : Byte}
    (h : putTokens ts args = some r) (hc : nextByte ts = some c) : (r ++ [newline]).head? = some c := by
  rcases ts with _ | ⟨_ | _ | _ | _ | _ | _, ts⟩
  · obtain rfl := Option.some.inj h
    exact hc
  · obtain ⟨q, hq, he⟩ := Option.bind_eq_some_iff.mp h
    obtain rfl := Option.some.inj hq
    obtain ⟨w, -, rfl⟩ := Option.map_eq_some_iff.mp he
    exact hc
  all_goals cases hc

/-- The end of an argument can be seen from what follows it. -/
def LogToken.Ends (next : Option Byte) : LogToken → LogArg → Prop
  | .str, .str s => ∃ c, next = some c ∧ c ∉ logputs s
  | .dec, .int _ => ∃ c, next = some c ∧ ¬ DecimalChar c
  | _, _ => True

/-- The argument that a token writes. -/
def LogToken.arg : LogToken → List LogArg → Option LogArg
  | .lit _, _ => none
  | _, args => args.head?

def LogToken.rest : LogToken → List LogArg → List LogArg
  | .lit _, args => args
  | _, args => args.tail

def Legible : List LogToken → List LogArg → Prop
  | [], _ => True
  | t :: ts, args => (∀ a, t.arg args = some a → t.Ends (nextByte ts) a) ∧ Legible ts (t.rest args)

/-- What an argument looks like in the text. -/
def LogToken.seen : LogToken → LogArg → LogArg
  | .chr, .int n => .int ((n.setWidth 8).setWidth 32)
  | .str, .str s => .str (some (logputs s))
  | _, a => a

def seen : List LogToken → List LogArg → List LogArg
  | [], _ => []
  | t :: ts, args => ((t.arg args).map t.seen).toList ++ seen ts (t.rest args)

theorem LogToken.puts_cases {t : LogToken} {args : List LogArg} {q : List Byte × List LogArg}
    (h : t.puts args = some q) : q.2 = t.rest args ∧
      ((∃ c, t = .lit c ∧ q.1 = [c]) ∨ ∃ a, t.arg args = some a ∧ t.put a = some q.1) := by
  cases t with
  | lit c =>
    obtain rfl := Option.some.inj h
    exact ⟨rfl, Or.inl ⟨c, rfl, rfl⟩⟩
  | _ =>
    cases args with
    | nil => cases h
    | cons a args =>
      obtain ⟨u, hu, rfl⟩ := Option.map_eq_some_iff.mp h
      exact ⟨rfl, Or.inr ⟨a, rfl, hu⟩⟩

theorem append_inj_of_stop {α : Type*} {p : α → Prop} {u v r r' : List α} {c : α} (hu : ∀ x ∈ u, p x)
    (hv : ∀ x ∈ v, p x) (hc : ¬ p c) (hr : r.head? = some c) (hr' : r'.head? = some c)
    (h : u ++ r = v ++ r') : u = v ∧ r = r' := by
  induction u generalizing v with
  | nil =>
    cases v with
    | nil => exact ⟨rfl, h⟩
    | cons y v =>
      rw [List.nil_append] at h
      rw [h] at hr
      exact absurd (Option.some.inj hr ▸ hv y List.mem_cons_self) hc
  | cons x u ih =>
    cases v with
    | nil =>
      rw [List.nil_append] at h
      rw [← h] at hr'
      exact absurd (Option.some.inj hr' ▸ hu x List.mem_cons_self) hc
    | cons y v =>
      obtain ⟨rfl, ht⟩ := List.cons.inj h
      obtain ⟨rfl, rfl⟩ := ih (fun x hx => hu x (List.mem_cons_of_mem _ hx))
        (fun x hx => hv x (List.mem_cons_of_mem _ hx)) ht
      exact ⟨rfl, rfl⟩

theorem LogToken.put_cases {t : LogToken} {a : LogArg} {u : List Byte} (h : t.put a = some u) :
    (∃ s, t = .str ∧ a = .str s ∧ u = logputs s) ∨ (∃ n, t = .chr ∧ a = .int n ∧ u = [n.setWidth 8]) ∨
      (∃ n, t = .dec ∧ a = .int n ∧ logputd n = some u) ∨
      (∃ n, t = .hex ∧ a = .int n ∧ u = logputx n) ∨ ∃ p, t = .ptr ∧ a = .word p ∧ u = logputp p := by
  cases t <;> cases a <;> simp_all [LogToken.put, eq_comm]

/-- Two arguments in the same place of two equal texts look the same, and so do the texts behind. -/
theorem LogToken.put_split {t : LogToken} {a b : LogArg} {u v r r' : List Byte} {next : Option Byte}
    (ha : t.put a = some u) (hb : t.put b = some v) (hea : t.Ends next a) (heb : t.Ends next b)
    (hr : ∀ c, next = some c → r.head? = some c) (hr' : ∀ c, next = some c → r'.head? = some c)
    (h : u ++ r = v ++ r') : t.seen a = t.seen b ∧ r = r' := by
  rcases put_cases ha with ⟨s, rfl, rfl, rfl⟩ | ⟨n, rfl, rfl, rfl⟩ | ⟨n, rfl, rfl, hn⟩ |
      ⟨n, rfl, rfl, rfl⟩ | ⟨p, rfl, rfl, rfl⟩ <;>
    rcases put_cases hb with ⟨s', ht, rfl, rfl⟩ | ⟨m, ht, rfl, rfl⟩ | ⟨m, ht, rfl, hm⟩ |
      ⟨m, ht, rfl, rfl⟩ | ⟨q, ht, rfl, rfl⟩ <;> cases ht
  · obtain ⟨c, hc, hs⟩ := hea
    obtain ⟨c', hc', hs'⟩ := heb
    obtain rfl := Option.some.inj (hc.symm.trans hc')
    obtain ⟨he, rfl⟩ := append_inj_of_stop (p := (· ≠ c)) (fun x hx he => hs (he ▸ hx))
      (fun x hx he => hs' (he ▸ hx)) (not_not.mpr rfl) (hr c hc) (hr' c hc) h
    exact ⟨congrArg (fun w => LogArg.str (some w)) he, rfl⟩
  · obtain ⟨he, rfl⟩ := List.cons.inj h
    exact ⟨congrArg (fun x : Byte => LogArg.int (x.setWidth 32)) he, rfl⟩
  · obtain ⟨c, hc, hd⟩ := hea
    obtain ⟨rfl, rfl⟩ := append_inj_of_stop (logputd_chars hn) (logputd_chars hm) hd (hr c hc)
      (hr' c hc) h
    exact ⟨congrArg LogArg.int (logputd_injective hn hm), rfl⟩
  · obtain ⟨he, rfl⟩ := List.append_inj h (by rw [logputx, logputx, putHex_length, putHex_length])
    exact ⟨congrArg LogArg.int (putHex_injective he), rfl⟩
  · obtain ⟨he, rfl⟩ := List.append_inj h (by rw [logputp, logputp, putHex_length, putHex_length])
    exact ⟨congrArg LogArg.word (putHex_injective he), rfl⟩

theorem putTokens_seen {ts : List LogToken} {a b : List LogArg} {r : List Byte} (ha : Legible ts a)
    (hb : Legible ts b) (h : putTokens ts a = some r) (h' : putTokens ts b = some r) :
    seen ts a = seen ts b := by
  induction ts generalizing a b r with
  | nil => rfl
  | cons t ts ih =>
    obtain ⟨q, hq, hw⟩ := Option.bind_eq_some_iff.mp h
    obtain ⟨q', hq', hw'⟩ := Option.bind_eq_some_iff.mp h'
    obtain ⟨w, hw, hr⟩ := Option.map_eq_some_iff.mp hw
    obtain ⟨w', hw', hr'⟩ := Option.map_eq_some_iff.mp hw'
    obtain ⟨hrest, hput⟩ := LogToken.puts_cases hq
    obtain ⟨hrest', hput'⟩ := LogToken.puts_cases hq'
    rw [hrest] at hw
    rw [hrest'] at hw'
    rw [seen, seen]
    rcases hput with ⟨c, rfl, hc⟩ | ⟨x, hx, hput⟩
    · rcases hput' with ⟨c', hc', he⟩ | ⟨x', hx', -⟩
      · obtain rfl := LogToken.lit.inj hc'
        rw [← hr', hc, he] at hr
        obtain rfl := List.append_cancel_left hr
        exact congrArg _ (ih ha.2 hb.2 hw hw')
      · cases hx'
    · rcases hput' with ⟨c', rfl, -⟩ | ⟨x', hx', hput'⟩
      · cases hx
      · have hsame : q.1 ++ (w ++ [newline]) = q'.1 ++ (w' ++ [newline]) := by
          rw [← List.append_assoc, ← List.append_assoc, hr, hr']
        obtain ⟨hseen, htail⟩ := LogToken.put_split hput hput' (ha.1 x hx) (hb.1 x' hx')
          (fun c hc => putTokens_head hw hc) (fun c hc => putTokens_head hw' hc) hsame
        obtain rfl := List.append_cancel_right htail
        rw [hx, hx', Option.map_some, Option.map_some, hseen, ih ha.2 hb.2 hw hw']

/-- Where the format shows the end of each number and of each string, a line of the log tells what
its arguments look like. -/
theorem log_line_legible (pointers : Bool) {level : ℤ} (hl : logDebug ≤ level) {fmt t : List Byte}
    {a b : List LogArg} (ha : Legible (tokens pointers fmt) a) (hb : Legible (tokens pointers fmt) b)
    (h : log pointers level fmt a = some t) (h' : log pointers level fmt b = some t) :
    seen (tokens pointers fmt) a = seen (tokens pointers fmt) b := by
  rw [log, if_neg (not_lt.mpr hl), Option.map_eq_some_iff] at h h'
  obtain ⟨r, hr, rfl⟩ := h
  obtain ⟨r', hr', he⟩ := h'
  obtain rfl := List.append_cancel_left (List.append_cancel_right he)
  rw [logFormat_eq] at hr hr'
  exact putTokens_seen ha hb hr hr'

/-- NULL cannot be told from the string `(null)`. -/
theorem log_line_legible_null :
    log false 3 (bytes "name: %s") [.str none] = some (bytes "[error] name: (null)\n") ∧
    log false 3 (bytes "name: %s") [.str (some (bytes "(null)"))] =
      some (bytes "[error] name: (null)\n") ∧
    seen (tokens false (bytes "name: %s")) [.str none] =
      seen (tokens false (bytes "name: %s")) [.str (some (bytes "(null)"))] := by
  have htokens : tokens false (bytes "name: %s") = (bytes "name: ").map .lit ++ [.str] := by decide
  have hnull : log false 3 (bytes "name: %s") [.str none] =
      some (bytes "[error] name: (null)\n") := by decide
  have hstring : log false 3 (bytes "name: %s") [.str (some (bytes "(null)"))] =
      some (bytes "[error] name: (null)\n") := by decide
  refine ⟨hnull, hstring, log_line_legible false (by decide) ?_ ?_ hnull hstring⟩
  all_goals
    rw [htokens]
    refine ⟨nofun, nofun, nofun, nofun, nofun, nofun, fun a ha => ?_, trivial⟩
    obtain rfl := Option.some.inj ha
    exact ⟨newline, rfl, by decide⟩

end Tokens

section Defined

/-- The token finds an argument of its kind. -/
def LogToken.fits : LogToken → List LogArg → Bool
  | .lit _, _ => true
  | .str, .str _ :: _ => true
  | .chr, .int _ :: _ => true
  | .dec, .int _ :: _ => true
  | .hex, .int _ :: _ => true
  | .ptr, .word _ :: _ => true
  | _, _ => false

/-- The number that the token writes in decimal. -/
def LogToken.number : LogToken → List LogArg → List (BitVec 32)
  | .dec, .int n :: _ => [n]
  | _, _ => []

def argsFit : List LogToken → List LogArg → Bool
  | [], _ => true
  | t :: ts, args => t.fits args && argsFit ts (t.rest args)

def numbers : List LogToken → List LogArg → List (BitVec 32)
  | [], _ => []
  | t :: ts, args => t.number args ++ numbers ts (t.rest args)

theorem logputd_isSome_iff (n : BitVec 32) : (logputd n).isSome ↔ n ≠ 0x80000000 := by
  have hneg : n.slt 0 = true ↔ 2 ^ 31 ≤ n.toNat := by
    rw [BitVec.slt_iff_toInt_lt, BitVec.toInt_eq_toNat_cond]
    split_ifs <;> simp <;> omega
  rw [logputd]
  split_ifs with h1 h2
  · have hmin : n = 0x80000000 := by
      rw [hneg] at h1
      bv_omega
    exact iff_of_false Bool.false_ne_true (not_not.mpr hmin)
  · refine iff_of_true rfl fun hmin => h2 ?_
    rw [hmin]
    rfl
  · refine iff_of_true rfl fun hmin => h1 ?_
    rw [hmin]
    decide

theorem LogToken.puts_isSome_iff (t : LogToken) (args : List LogArg) :
    (t.puts args).isSome ↔ t.fits args = true ∧ ∀ n ∈ t.number args, n ≠ 0x80000000 := by
  cases t with
  | lit c => simp [puts, fits, number]
  | dec => rcases args with _ | ⟨_ | _ | _, rest⟩ <;> simp [puts, put, fits, number, logputd_isSome_iff]
  | _ => rcases args with _ | ⟨_ | _ | _, rest⟩ <;> simp [puts, put, fits, number]

theorem putTokens_isSome_iff (ts : List LogToken) (args : List LogArg) :
    (putTokens ts args).isSome ↔
      argsFit ts args = true ∧ ∀ n ∈ numbers ts args, n ≠ 0x80000000 := by
  induction ts generalizing args with
  | nil => simp [putTokens, argsFit, numbers]
  | cons t ts ih =>
    have hput : (putTokens (t :: ts) args).isSome ↔
        (t.puts args).isSome ∧ (putTokens ts (t.rest args)).isSome := by
      rw [putTokens]
      cases hq : t.puts args with
      | none => simp
      | some q =>
        rw [Option.bind_some, Option.isSome_map, (LogToken.puts_cases hq).1]
        simp
    rw [hput, t.puts_isSome_iff, ih, argsFit, numbers, Bool.and_eq_true, List.forall_mem_append]
    tauto

/-- A call is defined if and only if it is dropped, or the format finds an argument of the right kind
for each directive and none of the numbers is the one without a negative. -/
theorem log_defined_iff (pointers : Bool) (level : ℤ) (fmt : List Byte) (args : List LogArg) :
    (log pointers level fmt args).isSome ↔ level < logDebug ∨
      argsFit (tokens pointers fmt) args = true ∧
        ∀ n ∈ numbers (tokens pointers fmt) args, n ≠ 0x80000000 := by
  rw [log, ← putTokens_isSome_iff, ← logFormat_eq]
  split_ifs with h
  · exact iff_of_true rfl (Or.inl h)
  · rw [Option.isSome_map]
    exact (or_iff_right h).symm

end Defined

section Pointers

variable {k : Config} {s p : List Byte}

/-- A pointer that was written to the log can be put into the configuration as it stands: every word
comes back, whatever the sentinel. -/
theorem logged_pointer_read (x sentinel : BitVec 64) {value : ℕ}
    (hr : configRead k s p = some (some value)) (hv : Config.string k.text value = some (logputp x)) :
    configReadAsPtr k s p sentinel = some x := by
  rw [configReadAsPtr_eq hr hv, logputp, hexNumber_putHex]
  exact congrArg some (BitVec.ofNat_toNat 64 x)

end Pointers
end Pinion64
