import Pinion64.ConfigRead
import Mathlib.Data.List.TakeWhile

/-! config_parse along its text: complete lines and entries are consumed one after the other, and
the rest of the text decides what the next slot is left with. -/
namespace Pinion64

section Scan
variable {p : Byte → Bool} {done ws bs w post : List Byte} {c e : Byte}

theorem skipFrom_append (hws : ∀ x ∈ ws, p x = true) (hc : p c = false) (i : ℕ) :
    skipFrom p (ws ++ c :: post) i = some (i + ws.length) := by
  induction ws generalizing i with
  | nil => simp [skipFrom, hc]
  | cons x ws ih =>
    rw [List.cons_append, skipFrom, if_pos (hws x (List.mem_cons_self ..)),
      ih (fun y hy => hws y (List.mem_cons_of_mem x hy)), List.length_cons]
    congr 1
    omega

theorem skip_append (hws : ∀ x ∈ ws, p x = true) (hc : p c = false) :
    skip p (done ++ (ws ++ c :: post)) done.length = some (done.length + ws.length) := by
  rw [skip, List.drop_left]
  exact skipFrom_append hws hc _

theorem getElem?_middle (done : List Byte) (c : Byte) (post : List Byte) :
    (done ++ c :: post)[done.length]? = some c := by
  rw [List.getElem?_append_right le_rfl, Nat.sub_self, List.getElem?_cons_zero]

theorem set_middle (done : List Byte) (c x : Byte) (post : List Byte) :
    (done ++ c :: post).set done.length x = done ++ x :: post := by
  rw [List.set_append_right _ _ le_rfl, Nat.sub_self, List.set_cons_zero]

/-- Blanks, a field and the character that ends it. -/
structure Token (p : Byte → Bool) (bs w : List Byte) (e : Byte) : Prop where
  blanks : ∀ x ∈ bs, blankChar x = true
  body : ∀ x ∈ w, p x = true
  stop : p e = false
  notNul : e ≠ nul
  start : ∀ x ∈ (w ++ [e]).head?, blankChar x = false

/-- Blanks and a field that ends with the text. -/
structure Last (p : Byte → Bool) (bs w : List Byte) : Prop where
  blanks : ∀ x ∈ bs, blankChar x = true
  body : ∀ x ∈ w, p x = true
  nonempty : w ≠ []
  start : ∀ x ∈ w.head?, blankChar x = false

def token (bs w : List Byte) (e : Byte) : List Byte := bs ++ (w ++ [e])

theorem token_length (bs w : List Byte) (e : Byte) :
    (token bs w e).length = bs.length + w.length + 1 := by
  simp [token, Nat.add_assoc]

/-- The scanner stands before `c` when the blanks are skipped. -/
theorem parseField_start (hb : ∀ x ∈ bs, blankChar x = true) (hc : blankChar c = false)
    (hn : c ≠ nul) : parseField p (done ++ (bs ++ c :: post)) done.length =
      (skip p (done ++ (bs ++ c :: post)) (done ++ bs).length).bind fun j =>
        ((done ++ (bs ++ c :: post))[j]?).bind fun x =>
          if x = nul then some (.cut (done ++ bs).length)
          else some (.field (done ++ bs).length (j+1) ((done ++ (bs ++ c :: post)).set j nul)) := by
  have hget : (done ++ (bs ++ c :: post))[done.length + bs.length]? = some c := by
    rw [← List.append_assoc, ← List.length_append]
    exact getElem?_middle ..
  unfold parseField
  rw [skip_append hb hc]
  dsimp only [bind, Option.bind_some]
  rw [hget]
  dsimp only [Option.bind_some]
  rw [if_neg hn, List.length_append]

theorem parseField_token (hp : p nul = false) (ht : Token p bs w e) :
    parseField p (done ++ (token bs w e ++ post)) done.length =
      some (.field (done.length + bs.length) (done ++ token bs w nul).length
        (done ++ (token bs w nul ++ post))) := by
  obtain ⟨c, t, hct, hblank, hnul⟩ : ∃ c t, w ++ e :: post = c :: t ∧ blankChar c = false ∧
      c ≠ nul := by
    cases w with
    | nil => exact ⟨e, post, rfl, ht.start e rfl, ht.notNul⟩
    | cons c w =>
      refine ⟨c, w ++ e :: post, rfl, ht.start c rfl, fun hc => ?_⟩
      have hpc := ht.body c (List.mem_cons_self ..)
      rw [hc, hp] at hpc
      cases hpc
  have htext : done ++ (token bs w e ++ post) = done ++ (bs ++ c :: t) := by
    simp [token, ← hct]
  have hsplit : done ++ (bs ++ c :: t) = (done ++ bs ++ w) ++ e :: post := by
    simp [← hct]
  have hskip : skip p (done ++ (bs ++ c :: t)) (done ++ bs).length =
      some (done ++ bs ++ w).length := by
    rw [← hct, ← List.append_assoc, skip_append ht.body ht.stop]
    simp [Nat.add_assoc]
  rw [htext, parseField_start ht.blanks hblank hnul, hskip]
  dsimp only [Option.bind_some]
  rw [hsplit, getElem?_middle]
  dsimp only [Option.bind_some]
  rw [if_neg ht.notNul, set_middle]
  simp [token, Nat.add_assoc]

theorem parseField_last (hp : p nul = false) (ht : Last p bs w) :
    parseField p (done ++ (bs ++ w ++ [nul])) done.length = some (.cut (done ++ bs).length) := by
  obtain ⟨c, t, rfl⟩ := List.exists_cons_of_ne_nil ht.nonempty
  have hnul : c ≠ nul := by
    intro hc
    have hpc := ht.body c (List.mem_cons_self ..)
    rw [hc, hp] at hpc
    cases hpc
  have htext : done ++ (bs ++ c :: t ++ [nul]) = done ++ (bs ++ c :: (t ++ [nul])) := by
    simp
  have hsplit : done ++ (bs ++ c :: (t ++ [nul])) = (done ++ bs ++ c :: t) ++ nul :: [] := by
    simp
  have hskip : skip p (done ++ (bs ++ c :: (t ++ [nul]))) (done ++ bs).length =
      some (done ++ bs ++ c :: t).length := by
    have h : skip p (done ++ bs ++ (c :: t ++ nul :: [])) (done ++ bs).length =
        some ((done ++ bs).length + (c :: t).length) := skip_append ht.body hp
    rw [← List.length_append] at h
    rw [← h]
    simp
  rw [htext, parseField_start ht.blanks (ht.start c rfl) hnul, hskip]
  dsimp only [Option.bind_some]
  rw [hsplit, getElem?_middle]
  dsimp only [Option.bind_some]
  rw [if_pos rfl]

theorem parseField_blanks (hb : ∀ x ∈ bs, blankChar x = true) :
    parseField p (done ++ (bs ++ [nul])) done.length = some .eof := by
  have hget : (done ++ (bs ++ [nul]))[done.length + bs.length]? = some nul := by
    rw [← List.append_assoc, ← List.length_append]
    exact getElem?_middle ..
  unfold parseField
  rw [skip_append hb (by decide)]
  dsimp only [bind, Option.bind_some]
  rw [hget]
  dsimp only [Option.bind_some]
  rw [if_pos rfl]

/-- A text is blank, ends in a field or begins with one that is ended. -/
theorem field_cases (p : Byte → Bool) {r : List Byte} (hr : nul ∉ r) :
    (∀ x ∈ r, blankChar x = true) ∨ (∃ bs w, r = bs ++ w ∧ Last p bs w) ∨
      ∃ bs w e r', r = token bs w e ++ r' ∧ Token p bs w e := by
  have hbs : ∀ x ∈ r.takeWhile blankChar, blankChar x = true := fun x hx => List.mem_takeWhile_imp hx
  have hsplit : r.takeWhile blankChar ++ r.dropWhile blankChar = r := List.takeWhile_append_dropWhile
  have hhead : ∀ x ∈ (r.dropWhile blankChar).head?, blankChar x = false := by
    intro x hx
    have h := List.head?_dropWhile_not blankChar r
    rw [Option.mem_def.mp hx] at h
    simpa using h
  obtain ⟨r₁, hr₁⟩ : ∃ r₁, r.dropWhile blankChar = r₁ := ⟨_, rfl⟩
  obtain ⟨bs, hbs₁⟩ : ∃ bs, r.takeWhile blankChar = bs := ⟨_, rfl⟩
  rw [hr₁, hbs₁] at hsplit
  rw [hr₁] at hhead
  rw [hbs₁] at hbs
  by_cases hnil : r₁ = []
  · left
    rw [hnil, List.append_nil] at hsplit
    rwa [hsplit] at hbs
  · right
    have hw : ∀ x ∈ r₁.takeWhile p, p x = true := fun x hx => List.mem_takeWhile_imp hx
    have hsplit₁ : r₁.takeWhile p ++ r₁.dropWhile p = r₁ := List.takeWhile_append_dropWhile
    cases hr₂ : r₁.dropWhile p with
    | nil =>
      left
      rw [hr₂, List.append_nil] at hsplit₁
      rw [hsplit₁] at hw
      exact ⟨_, r₁, hsplit.symm, hbs, hw, hnil, hhead⟩
    | cons e r' =>
      right
      have hstop : p e = false := by
        have h := List.head?_dropWhile_not p r₁
        rw [hr₂] at h
        simpa using h
      rw [hr₂] at hsplit₁
      refine ⟨_, r₁.takeWhile p, e, r', ?_, hbs, hw, hstop, ?_, ?_⟩
      · rw [← hsplit, ← hsplit₁]
        simp [token, hsplit₁]
      · intro he
        refine hr ?_
        rw [← hsplit, ← hsplit₁, he]
        simp
      · intro x hx
        refine hhead x ?_
        rw [← hsplit₁]
        cases hc : r₁.takeWhile p with
        | nil =>
          rw [hc] at hx
          exact hx
        | cons y ys =>
          rw [hc] at hx
          exact hx

end Scan
section Grammar

/-- The three strings of an entry, with their places in the text. -/
structure ConfigEntry where
  sectionAt : ℕ
  sectionName : List Byte
  propertyAt : ℕ
  property : List Byte
  valueAt : ℕ
  value : List Byte

def ConfigEntry.item (e : ConfigEntry) : ConfigItem :=
  ⟨some e.sectionAt, some e.propertyAt, some e.valueAt⟩

/-- The strings of the entry are in the text, at their places. -/
structure ConfigEntry.In (e : ConfigEntry) (text : List Byte) : Prop where
  sectionName : Config.string text e.sectionAt = some e.sectionName
  property : Config.string text e.propertyAt = some e.property
  value : Config.string text e.valueAt = some e.value

/-- The text is no comment and no empty line. -/
def Starts (t : List Byte) : Prop := ∀ c ∈ t.head?, c ≠ hash ∧ c ≠ newline

/-- The text at offset `o` of one entry, what config_parse makes of it and what is read there. -/
inductive EntryText : ℕ → List Byte → List Byte → ConfigEntry → Prop
  | mk (o : ℕ) {b₁ w₁ b₂ w₂ b₃ w₃ : List Byte} {e₁ e₂ e₃ : Byte}
      (h₁ : Token fieldChar b₁ w₁ e₁) (h₂ : Token fieldChar b₂ w₂ e₂) (h₃ : Token valueChar b₃ w₃ e₃) :
      EntryText o (token b₁ w₁ e₁ ++ (token b₂ w₂ e₂ ++ token b₃ w₃ e₃))
        (token b₁ w₁ nul ++ (token b₂ w₂ nul ++ token b₃ w₃ nul))
        ⟨o + b₁.length, w₁, o + (token b₁ w₁ nul).length + b₂.length, w₂,
          o + (token b₁ w₁ nul).length + (token b₂ w₂ nul).length + b₃.length, w₃⟩

/-- What one turn of the loop consumes: its text, what becomes of it, and its entry. -/
inductive Piece : ℕ → List Byte → List Byte → List ConfigEntry → Prop
  | comment (o : ℕ) {w : List Byte} (hw : ∀ x ∈ w, valueChar x = true) :
      Piece o (hash :: (w ++ [newline])) (hash :: (w ++ [newline])) []
  | empty (o : ℕ) : Piece o [newline] [newline] []
  | entry {o : ℕ} {t t' : List Byte} {e : ConfigEntry} (hs : Starts t) (h : EntryText o t t' e) :
      Piece o t t' [e]

/-- Several turns of the loop. -/
inductive Pieces : ℕ → List Byte → List Byte → List ConfigEntry → Prop
  | nil (o : ℕ) : Pieces o [] [] []
  | cons {o : ℕ} {t t' u u' : List Byte} {es fs : List ConfigEntry} (h : Piece o t t' es)
      (hs : Pieces (o + t.length) u u' fs) : Pieces o (t ++ u) (t' ++ u') (es ++ fs)

/-- What the end of the text leaves in the next slot: nothing, a section without property or
value, or pointers under a section that is NULL again. -/
inductive Rest
  | clean
  | dangling
  | cut

inductive Tail : List Byte → Rest → Prop
  | nil : Tail [] .clean
  | comment {w : List Byte} (hw : ∀ x ∈ w, valueChar x = true) : Tail (hash :: w) .clean
  | blanks {b : List Byte} (hne : b ≠ []) (hb : ∀ x ∈ b, blankChar x = true) : Tail b .clean
  | sectionCut {b w : List Byte} (hs : Starts (b ++ w)) (h : Last fieldChar b w) :
      Tail (b ++ w) .cut
  | afterSection {b₁ w₁ b₂ : List Byte} {e₁ : Byte} (hs : Starts (token b₁ w₁ e₁))
      (h₁ : Token fieldChar b₁ w₁ e₁) (hb : ∀ x ∈ b₂, blankChar x = true) :
      Tail (token b₁ w₁ e₁ ++ b₂) .dangling
  | propertyCut {b₁ w₁ b₂ w₂ : List Byte} {e₁ : Byte} (hs : Starts (token b₁ w₁ e₁))
      (h₁ : Token fieldChar b₁ w₁ e₁) (h₂ : Last fieldChar b₂ w₂) :
      Tail (token b₁ w₁ e₁ ++ (b₂ ++ w₂)) .cut
  | afterProperty {b₁ w₁ b₂ w₂ b₃ : List Byte} {e₁ e₂ : Byte} (hs : Starts (token b₁ w₁ e₁))
      (h₁ : Token fieldChar b₁ w₁ e₁) (h₂ : Token fieldChar b₂ w₂ e₂)
      (hb : ∀ x ∈ b₃, blankChar x = true) :
      Tail (token b₁ w₁ e₁ ++ (token b₂ w₂ e₂ ++ b₃)) .dangling
  | valueCut {b₁ w₁ b₂ w₂ b₃ w₃ : List Byte} {e₁ e₂ : Byte} (hs : Starts (token b₁ w₁ e₁))
      (h₁ : Token fieldChar b₁ w₁ e₁) (h₂ : Token fieldChar b₂ w₂ e₂) (h₃ : Last valueChar b₃ w₃) :
      Tail (token b₁ w₁ e₁ ++ (token b₂ w₂ e₂ ++ (b₃ ++ w₃))) .cut

theorem starts_append {t u : List Byte} (h : Starts (t ++ u)) (ht : t ≠ []) : Starts t := by
  obtain ⟨c, t, rfl⟩ := List.exists_cons_of_ne_nil ht
  exact h

theorem Starts.append {t u : List Byte} (h : Starts t) (ht : t ≠ []) : Starts (t ++ u) := by
  obtain ⟨c, t, rfl⟩ := List.exists_cons_of_ne_nil ht
  exact h

theorem token_ne_nil (bs w : List Byte) (e : Byte) : token bs w e ≠ [] := by
  simp [token]

/-- A text that is no comment and no empty line has an entry in front or is a tail. -/
theorem starts_cases {r : List Byte} (hr : nul ∉ r) (hs : Starts r) (o : ℕ) :
    (∃ kind, Tail r kind) ∨ ∃ t t' e u, r = t ++ u ∧ Starts t ∧ EntryText o t t' e := by
  by_cases hnil : r = []
  · rw [hnil]
    exact Or.inl ⟨_, .nil⟩
  rcases field_cases fieldChar hr with hb | ⟨b, w, rfl, hl⟩ | ⟨b₁, w₁, e₁, r₁, rfl, h₁⟩
  · exact Or.inl ⟨_, .blanks hnil hb⟩
  · exact Or.inl ⟨_, .sectionCut hs hl⟩
  have hs₁ : Starts (token b₁ w₁ e₁) := starts_append hs (token_ne_nil _ _ _)
  have hr₁ : nul ∉ r₁ := fun h => hr (List.mem_append_right _ h)
  rcases field_cases fieldChar hr₁ with hb | ⟨b, w, rfl, hl⟩ | ⟨b₂, w₂, e₂, r₂, rfl, h₂⟩
  · exact Or.inl ⟨_, .afterSection hs₁ h₁ hb⟩
  · exact Or.inl ⟨_, .propertyCut hs₁ h₁ hl⟩
  have hr₂ : nul ∉ r₂ := fun h => hr₁ (List.mem_append_right _ h)
  rcases field_cases valueChar hr₂ with hb | ⟨b, w, rfl, hl⟩ | ⟨b₃, w₃, e₃, r₃, rfl, h₃⟩
  · exact Or.inl ⟨_, .afterProperty hs₁ h₁ h₂ hb⟩
  · exact Or.inl ⟨_, .valueCut hs₁ h₁ h₂ hl⟩
  · refine Or.inr ⟨_, _, _, r₃, ?_, hs₁.append (token_ne_nil _ _ _), .mk o h₁ h₂ h₃⟩
    simp only [List.append_assoc]

theorem valueChar_cases {r : List Byte} (hr : nul ∉ r) :
    (∀ x ∈ r, valueChar x = true) ∨ ∃ w u, r = w ++ newline :: u ∧ ∀ x ∈ w, valueChar x = true := by
  induction r with
  | nil => exact Or.inl fun _ hx => absurd hx List.not_mem_nil
  | cons c r ih =>
    rw [List.mem_cons, not_or] at hr
    by_cases hc : c = newline
    · exact Or.inr ⟨[], r, by rw [hc]; rfl, fun _ hx => absurd hx List.not_mem_nil⟩
    have hv : valueChar c = true := by
      simp [valueChar, hc, Ne.symm hr.1]
    rcases ih hr.2 with h | ⟨w, u, rfl, h⟩
    · exact Or.inl (List.forall_mem_cons.mpr ⟨hv, h⟩)
    · exact Or.inr ⟨c :: w, u, rfl, List.forall_mem_cons.mpr ⟨hv, h⟩⟩

/-- Every text is a sequence of pieces and a tail. -/
theorem exists_pieces {r : List Byte} (hr : nul ∉ r) (o : ℕ) :
    ∃ t t' es u kind, r = t ++ u ∧ Pieces o t t' es ∧ Tail u kind := by
  obtain ⟨n, hn⟩ : ∃ n, r.length = n := ⟨_, rfl⟩
  induction n using Nat.strong_induction_on generalizing r o with
  | h n ih =>
    -- one piece in front, the rest by induction
    have hstep : ∀ t t' es u, r = t ++ u → t ≠ [] → Piece o t t' es →
        ∃ t t' es u kind, r = t ++ u ∧ Pieces o t t' es ∧ Tail u kind := by
      intro t t' es u hru hne hp
      have hlen : u.length < n := by
        have hpos := List.length_pos_of_ne_nil hne
        rw [hru, List.length_append] at hn
        omega
      obtain ⟨v, v', fs, x, kind, rfl, hv, hx⟩ := ih _ hlen
        (fun h => hr (hru ▸ List.mem_append_right _ h)) (o + t.length) rfl
      exact ⟨t ++ v, t' ++ v', es ++ fs, x, kind, by rw [hru, List.append_assoc], .cons hp hv, hx⟩
    cases hc : r with
    | nil => exact ⟨[], [], [], [], .clean, rfl, .nil o, .nil⟩
    | cons c r₁ =>
      rw [← hc]
      by_cases hh : c = hash
      · have hr₁ : nul ∉ r₁ := fun h => hr (hc ▸ List.mem_cons_of_mem _ h)
        rcases valueChar_cases hr₁ with h | ⟨w, u, rfl, h⟩
        · refine ⟨[], [], [], r, .clean, rfl, .nil o, ?_⟩
          rw [hc, hh]
          exact .comment h
        · refine hstep _ _ _ u ?_ (List.cons_ne_nil _ _) (.comment o h)
          rw [hc, hh]
          simp
      by_cases hl : c = newline
      · refine hstep _ _ _ r₁ ?_ (List.cons_ne_nil _ _) (.empty o)
        rw [hc, hl]
        rfl
      have hs : Starts r := by
        rw [hc]
        intro x hx
        obtain rfl := Option.some.inj hx
        exact ⟨hh, hl⟩
      rcases starts_cases hr hs o with ⟨kind, ht⟩ | ⟨t, t', e, u, hru, hst, he⟩
      · exact ⟨[], [], [], r, kind, rfl, .nil o, ht⟩
      · refine hstep t t' [e] u hru ?_ (.entry hst he)
        obtain ⟨⟩ := he
        simp [token]

end Grammar
end Pinion64
