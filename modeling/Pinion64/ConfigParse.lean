import Pinion64.ConfigText

/-! What config_parse leaves of a text: round trip, malformed lines, and the state of the index. -/
namespace Pinion64

section Strings

theorem string_mono {l : List Byte} {i : ℕ} {v : List Byte} (h : Config.string l i = some v)
    (x : List Byte) : Config.string (l ++ x) i = some v := by
  obtain ⟨hv, rest, hl⟩ := stringFrom_eq_some h
  have hi : i ≤ l.length := by
    by_contra hlt
    rw [List.drop_eq_nil_of_le (by omega)] at hl
    simp at hl
  rw [Config.string, List.drop_append_of_le_length hi, hl, List.append_assoc]
  exact stringFrom_append hv _

theorem string_middle (done : List Byte) {w : List Byte} (hw : nul ∉ w) (post : List Byte) :
    Config.string (done ++ (w ++ nul :: post)) done.length = some w := by
  rw [Config.string, List.drop_left]
  exact stringFrom_append hw post

theorem ConfigEntry.In.mono {e : ConfigEntry} {l : List Byte} (h : e.In l) (x : List Byte) :
    e.In (l ++ x) :=
  ⟨string_mono h.sectionName x, string_mono h.property x, string_mono h.value x⟩

theorem nul_notMem_of_all {p : Byte → Bool} {w : List Byte} (hp : p nul = false)
    (hw : ∀ x ∈ w, p x = true) : nul ∉ w := by
  intro hm
  have hone := hw nul hm
  rw [hp] at hone
  cases hone

theorem Token.nul_notMem {p : Byte → Bool} (hp : p nul = false) {bs w : List Byte} {e : Byte}
    (h : Token p bs w e) : nul ∉ w :=
  nul_notMem_of_all hp h.body

/-- The string of a token stands behind its blanks. -/
theorem token_string {p : Byte → Bool} (hp : p nul = false) {bs w : List Byte} {e : Byte}
    (h : Token p bs w e) (done post : List Byte) :
    Config.string (done ++ (token bs w nul ++ post)) (done.length + bs.length) = some w := by
  have hs := string_middle (done ++ bs) (h.nul_notMem hp) post
  rw [List.length_append] at hs
  rw [← hs]
  simp [token]

theorem EntryText.length {o : ℕ} {t t' : List Byte} {e : ConfigEntry} (h : EntryText o t t' e) :
    t'.length = t.length := by
  obtain ⟨⟩ := h
  simp [token]

theorem EntryText.strings {t t' : List Byte} {e : ConfigEntry} {done : List Byte}
    (h : EntryText done.length t t' e) : e.In (done ++ t') := by
  obtain ⟨⟩ := h
  rename_i b₁ w₁ b₂ w₂ b₃ w₃ e₁ e₂ e₃ h₁ h₂ h₃
  constructor
  · exact token_string (by decide) h₁ done _
  · have hs := token_string (by decide) h₂ (done ++ token b₁ w₁ nul) (token b₃ w₃ nul)
    rw [List.length_append] at hs
    rw [← hs, List.append_assoc]
  · have hs := token_string (by decide) h₃ (done ++ token b₁ w₁ nul ++ token b₂ w₂ nul) []
    rw [List.length_append, List.length_append, List.append_nil] at hs
    rw [← hs, List.append_assoc, List.append_assoc]

theorem Piece.length {o : ℕ} {t t' : List Byte} {es : List ConfigEntry} (h : Piece o t t' es) :
    t'.length = t.length := by
  cases h with
  | comment => rfl
  | empty => rfl
  | entry _ he => exact he.length

theorem Piece.length_pos {o : ℕ} {t t' : List Byte} {es : List ConfigEntry} (h : Piece o t t' es) :
    0 < t.length := by
  cases h with
  | comment => exact Nat.succ_pos _
  | empty => exact Nat.succ_pos _
  | entry _ he =>
    obtain ⟨⟩ := he
    simp [token]

theorem Pieces.length {o : ℕ} {t t' : List Byte} {es : List ConfigEntry} (h : Pieces o t t' es) :
    t'.length = t.length := by
  induction h with
  | nil => rfl
  | cons hp _ ih => rw [List.length_append, List.length_append, hp.length, ih]

end Strings

section ConfigEntry
variable {k : Config} {done rest : List Byte} {es : List ConfigEntry} {index : ℕ}

/-- What is known at the head of the loop: the slots hold the entries read so far, whose strings
lie in the part of the text that is done. -/
structure Reading (k : Config) (done rest : List Byte) (es : List ConfigEntry) : Prop where
  text : k.text = done ++ (rest ++ [nul])
  items : ∀ j, k.configIndex j = (es[j]?).elim ⟨none, none, none⟩ ConfigEntry.item
  strings : ∀ e ∈ es, e.In done

/-- The slot after the three writes of an entry. -/
theorem set_entry (k : Config) (index a b c : ℕ) (t₁ t₂ t₃ : List Byte) :
    { ({ ({ k.setSection index (some a) with text := t₁ } : Config).setProperty index (some b) with
      text := t₂ } : Config).setValue index (some c) with text := t₃ } =
      { k.setItem index ⟨some a, some b, some c⟩ with text := t₃ } := by
  simp [Config.setSection, Config.setProperty, Config.setValue, Config.setItem,
    Function.update_idem]

theorem parseEntry_entry {t t' : List Byte} {e : ConfigEntry} (h : EntryText done.length t t' e)
    (hk : k.text = done ++ (t ++ rest)) :
    parseEntry k index done.length =
      some ({ k.setItem index e.item with text := done ++ (t' ++ rest) },
        some (done.length + t.length)) := by
  obtain ⟨⟩ := h
  rename_i b₁ w₁ b₂ w₂ b₃ w₃ e₁ e₂ e₃ h₁ h₂ h₃
  unfold parseEntry
  rw [hk, List.append_assoc, parseField_token (by decide) h₁]
  dsimp only [bind, Option.bind_some]
  rw [List.append_assoc, ← List.append_assoc done, parseField_token (by decide) h₂]
  dsimp only [Option.bind_some]
  rw [← List.append_assoc (done ++ _), parseField_token (by decide) h₃]
  dsimp only [Option.bind_some]
  rw [set_entry]
  simp [ConfigEntry.item, token, Nat.add_assoc]
  congr 4
  omega

theorem Reading.items_ge (h : Reading k done rest es) {j : ℕ} (hj : es.length ≤ j) :
    k.configIndex j = ⟨none, none, none⟩ := by
  rw [h.items, List.getElem?_eq_none hj]
  rfl

theorem Reading.entry {t t' : List Byte} {e : ConfigEntry} (h : Reading k done (t ++ rest) es)
    (ht : EntryText done.length t t' e) : ∃ k',
    parseEntry k es.length done.length = some (k', some (done ++ t').length) ∧
      Reading k' (done ++ t') rest (es ++ [e]) := by
  have hk : k.text = done ++ (t ++ (rest ++ [nul])) := by
    rw [h.text, List.append_assoc]
  refine ⟨{ k.setItem es.length e.item with text := done ++ (t' ++ (rest ++ [nul])) }, ?_, ?_,
    fun j => ?_, ?_⟩
  · rw [parseEntry_entry ht hk, List.length_append, ht.length]
  · exact (List.append_assoc _ _ _).symm
  · dsimp only [Config.setItem]
    rcases Nat.lt_trichotomy j es.length with hj | rfl | hj
    · rw [Function.update_of_ne (by omega), h.items, List.getElem?_append_left hj]
    · rw [Function.update_self, List.getElem?_append_right le_rfl, Nat.sub_self]
      rfl
    · rw [Function.update_of_ne (by omega), h.items_ge hj.le, List.getElem?_eq_none]
      · rfl
      · rw [List.length_append, List.length_singleton]
        omega
  · intro f hf
    rcases List.mem_append.mp hf with hf | hf
    · exact (h.strings f hf).mono t'
    · rw [List.mem_singleton.mp hf]
      exact ht.strings

theorem Reading.move {t : List Byte} (h : Reading k done (t ++ rest) es) :
    Reading k (done ++ t) rest es where
  text := by rw [h.text, List.append_assoc, List.append_assoc]
  items := h.items
  strings e he := (h.strings e he).mono t

/-- The character at the cursor. -/
theorem Reading.head {c : Byte} {t : List Byte} (h : Reading k done (c :: t) es) :
    k.text[done.length]? = some c := by
  rw [h.text]
  exact getElem?_middle done c _

theorem Reading.head_nul (h : Reading k done [] es) : k.text[done.length]? = some nul := by
  rw [h.text]
  exact getElem?_middle done nul _

/-- The loop at a character that begins an entry. -/
theorem configParseFrom_entry {t : List Byte} (h : Reading k done t es) (hs : Starts t)
    (hn : nul ∉ t) (hne : t ≠ []) (fuel : ℕ) :
    configParseFrom (fuel + 1) k index done.length =
      (parseEntry k index done.length).bind fun r => r.2.elim (some r.1) fun i =>
        if index + 1 = configIndexSize then some r.1
        else configParseFrom fuel r.1 (index + 1) i := by
  obtain ⟨c, t, rfl⟩ := List.exists_cons_of_ne_nil hne
  obtain ⟨hhash, hline⟩ := hs c rfl
  have hnul : c ≠ nul := fun hc => hn (hc ▸ List.mem_cons_self ..)
  rw [configParseFrom, h.head]
  dsimp only [bind, Option.bind_some]
  rw [if_neg hhash, if_neg hline, if_neg hnul]
  congr 1
  funext r
  cases r.2 <;> rfl

/-- A turn of the loop over a piece, when the index does not fill up. -/
theorem Reading.piece {t t' : List Byte} {fs : List ConfigEntry} (h : Reading k done (t ++ rest) es)
    (ht : Piece done.length t t' fs) (hn : nul ∉ t ++ rest)
    (hlen : es.length + fs.length < configIndexSize) : ∃ k', Reading k' (done ++ t') rest (es ++ fs) ∧
    ∀ fuel, configParseFrom (fuel + 1) k es.length done.length =
      configParseFrom fuel k' (es ++ fs).length (done ++ t').length := by
  cases ht with
  | @comment w hw =>
    have hlast : k.text[(done ++ hash :: w).length]? = some newline := by
      rw [h.text, ← getElem?_middle (done ++ hash :: w) newline (rest ++ [nul])]
      simp
    have hskip : skip valueChar k.text done.length = some (done ++ hash :: w).length := by
      have hs : skip valueChar (done ++ ((hash :: w) ++ newline :: (rest ++ [nul]))) done.length =
          some (done.length + (hash :: w).length) :=
        skip_append (List.forall_mem_cons.mpr ⟨by decide, hw⟩) (by decide)
      rw [← List.length_append] at hs
      rw [h.text, ← hs]
      simp
    rw [List.append_nil]
    refine ⟨k, h.move, fun fuel => ?_⟩
    rw [configParseFrom, h.head]
    dsimp only [bind, Option.bind_some]
    rw [if_pos rfl, hskip]
    dsimp only [Option.bind_some]
    rw [hlast]
    dsimp only [Option.bind_some]
    rw [if_pos (by decide)]
    congr 1
    simp [Nat.add_assoc]
  | empty =>
    rw [List.append_nil]
    refine ⟨k, h.move, fun fuel => ?_⟩
    rw [configParseFrom, h.head]
    dsimp only [bind, Option.bind_some]
    rw [if_neg (by decide), if_pos rfl, List.length_append, List.length_singleton]
  | entry hs he =>
    have hne : t ≠ [] := by
      obtain ⟨⟩ := he
      simp [token]
    obtain ⟨k', hk', hr⟩ := h.entry he
    refine ⟨k', hr, fun fuel => ?_⟩
    rw [configParseFrom_entry h (hs.append hne) hn (by simp [hne]), hk']
    dsimp only [Option.bind_some, Option.elim_some]
    rw [if_neg (by simpa using hlen.ne), List.length_append, List.length_append,
      List.length_singleton]

/-- The turns over several pieces. -/
theorem Reading.pieces {t t' : List Byte} {fs : List ConfigEntry} (h : Reading k done (t ++ rest) es)
    (ht : Pieces done.length t t' fs) (hn : nul ∉ t ++ rest)
    (hlen : es.length + fs.length < configIndexSize) :
    ∃ k' n, n ≤ t.length ∧ Reading k' (done ++ t') rest (es ++ fs) ∧
      ∀ fuel, configParseFrom (fuel + n) k es.length done.length =
        configParseFrom fuel k' (es ++ fs).length (done ++ t').length := by
  obtain ⟨o, ho⟩ : ∃ o, done.length = o := ⟨_, rfl⟩
  rw [ho] at ht
  induction ht generalizing k done es with
  | nil o =>
    refine ⟨k, 0, le_rfl, ?_, fun fuel => ?_⟩
    · rw [List.append_nil, List.append_nil]
      exact h
    · rw [List.append_nil, List.append_nil, Nat.add_zero]
  | @cons o t t' u u' gs fs hp hps ih =>
    rw [List.append_assoc] at h hn
    rw [List.length_append] at hlen
    subst ho
    obtain ⟨k₁, hr₁, hc₁⟩ := h.piece hp hn (by omega)
    have hlen' : t'.length = t.length := hp.length
    have hpos : 0 < t.length := hp.length_pos
    obtain ⟨k₂, n, hle, hr₂, hc₂⟩ := ih hr₁ (fun hm => hn (List.mem_append_right _ hm))
      (by rw [List.length_append]; omega) (by rw [List.length_append, hlen'])
    refine ⟨k₂, n + 1, ?_, ?_, fun fuel => ?_⟩
    · rw [List.length_append]
      omega
    · rw [← List.append_assoc, ← List.append_assoc]
      exact hr₂
    · rw [← Nat.add_assoc, hc₁, hc₂, List.append_assoc, List.append_assoc]

end ConfigEntry
section End
variable {k : Config} {done : List Byte} {es : List ConfigEntry}

/-- What the slot behind the entries looks like. -/
def Rest.Leaves : Rest → ConfigItem → Prop
  | .clean, item => item = ⟨none, none, none⟩
  | .dangling, item => item.sectionAt ≠ none ∧ item.valueAt = none
  | .cut, item => item.sectionAt = none

/-- The state at the return: the entries, and what is left in the slot behind them. -/
structure Left (k : Config) (es : List ConfigEntry) (rest : Rest) : Prop where
  items : ∀ j e, es[j]? = some e → k.configIndex j = e.item
  strings : ∀ e ∈ es, e.In k.text
  slot : rest.Leaves (k.configIndex es.length)
  later : ∀ j, es.length < j → k.configIndex j = ⟨none, none, none⟩

/-- Behind the last entry at most one slot is written, and only the text behind the cursor. -/
theorem Reading.left {u x : List Byte} {k' : Config} {rest : Rest} (h : Reading k done u es)
    (hi : ∀ j, j ≠ es.length → k'.configIndex j = k.configIndex j) (hx : k'.text = done ++ x)
    (hs : rest.Leaves (k'.configIndex es.length)) : Left k' es rest where
  items j e he := by
    have hlt : j < es.length := by
      by_contra hle
      rw [List.getElem?_eq_none (by omega)] at he
      cases he
    rw [hi j (by omega), h.items, he]
    rfl
  strings e he := by
    rw [hx]
    exact (h.strings e he).mono x
  slot := hs
  later j hj := by
    rw [hi j (by omega), h.items_ge hj.le]

theorem Reading.slot {u : List Byte} (h : Reading k done u es) :
    k.configIndex es.length = ⟨none, none, none⟩ :=
  h.items_ge le_rfl

/-- The text behind the cursor. -/
theorem Reading.text_eq {u : List Byte} (h : Reading k done u es) : k.text = done ++ (u ++ [nul]) :=
  h.text

/-- An entry that runs into the end of the text. -/
theorem parseEntry_tail {u : List Byte} {rest : Rest} (h : Reading k done u es) (ht : Tail u rest)
    (hs : Starts u) (hne : u ≠ []) :
    ∃ k', parseEntry k es.length done.length = some (k', none) ∧ Left k' es rest := by
  have hk := h.text_eq
  have hslot := h.slot
  unfold parseEntry
  rw [hk]
  cases ht with
  | nil => exact absurd rfl hne
  | comment hw => exact absurd rfl (hs hash rfl).1
  | blanks _ hb =>
    rw [parseField_blanks hb]
    exact ⟨k, rfl, h.left (fun _ _ => rfl) hk hslot⟩
  | sectionCut _ hl =>
    rw [parseField_last (by decide) hl]
    refine ⟨_, rfl, h.left (fun j hj => ?_) hk ?_⟩
    · simp [Config.setSection, Config.setItem, hj]
    · simp [Config.setSection, Config.setItem, Rest.Leaves]
  | @afterSection b₁ w₁ b₂ e₁ _ h₁ hb =>
    rw [List.append_assoc, parseField_token (by decide) h₁]
    dsimp only [bind, Option.bind_some]
    rw [← List.append_assoc, parseField_blanks hb]
    refine ⟨_, rfl, h.left (fun j hj => ?_) (List.append_assoc _ _ _) ?_⟩
    · simp [Config.setSection, Config.setItem, hj]
    · simp [Config.setSection, Config.setItem, Rest.Leaves, hslot]
  | @propertyCut b₁ w₁ b₂ w₂ e₁ _ h₁ h₂ =>
    rw [List.append_assoc, parseField_token (by decide) h₁]
    dsimp only [bind, Option.bind_some]
    rw [← List.append_assoc, parseField_last (by decide) h₂]
    refine ⟨_, rfl, h.left (fun j hj => ?_) (List.append_assoc _ _ _) ?_⟩
    · simp [Config.setSection, Config.setProperty, Config.setItem, hj]
    · simp [Config.setSection, Config.setProperty, Config.setItem, Rest.Leaves]
  | @afterProperty b₁ w₁ b₂ w₂ b₃ e₁ e₂ _ h₁ h₂ hb =>
    rw [List.append_assoc, parseField_token (by decide) h₁]
    dsimp only [bind, Option.bind_some]
    rw [List.append_assoc, ← List.append_assoc done, parseField_token (by decide) h₂]
    dsimp only [Option.bind_some]
    rw [← List.append_assoc (done ++ _), parseField_blanks hb]
    refine ⟨_, rfl, h.left (fun j hj => ?_)
      (x := token b₁ w₁ nul ++ (token b₂ w₂ nul ++ (b₃ ++ [nul])))
      ?_ ?_⟩
    · simp [Config.setSection, Config.setProperty, Config.setItem, hj]
    · simp
    · simp [Config.setSection, Config.setProperty, Config.setItem, Rest.Leaves, hslot]
  | @valueCut b₁ w₁ b₂ w₂ b₃ w₃ e₁ e₂ _ h₁ h₂ h₃ =>
    rw [List.append_assoc, parseField_token (by decide) h₁]
    dsimp only [bind, Option.bind_some]
    rw [List.append_assoc, ← List.append_assoc done, parseField_token (by decide) h₂]
    dsimp only [Option.bind_some]
    rw [← List.append_assoc (done ++ _), parseField_last (by decide) h₃]
    refine ⟨_, rfl, h.left (fun j hj => ?_)
      (x := token b₁ w₁ nul ++ (token b₂ w₂ nul ++ (b₃ ++ w₃ ++ [nul]))) ?_ ?_⟩
    · simp [Config.setSection, Config.setProperty, Config.setValue, Config.setItem, hj]
    · simp [Config.setValue, Config.setSection, Config.setItem]
    · simp [Config.setSection, Config.setProperty, Config.setValue, Config.setItem, Rest.Leaves]

theorem starts_blanks {b : List Byte} (hb : ∀ x ∈ b, blankChar x = true) : Starts b := by
  intro c hc
  have hbc := hb c (List.mem_of_mem_head? hc)
  constructor
  · rintro rfl
    exact absurd hbc (by decide)
  · rintro rfl
    exact absurd hbc (by decide)

/-- The last turns of the loop. -/
theorem Reading.tail {u : List Byte} {rest : Rest} (h : Reading k done u es) (ht : Tail u rest)
    (hn : nul ∉ u) : ∃ k', Left k' es rest ∧
      ∀ fuel, configParseFrom (fuel + 2) k es.length done.length = some k' := by
  have hentry : Starts u → u ≠ [] → ∃ k', Left k' es rest ∧
      ∀ fuel, configParseFrom (fuel + 2) k es.length done.length = some k' := by
    intro hs hne
    obtain ⟨k', hk', hleft⟩ := parseEntry_tail h ht hs hne
    refine ⟨k', hleft, fun fuel => ?_⟩
    rw [configParseFrom_entry h hs hn hne, hk']
    rfl
  have hne : ∀ (b w : List Byte) (e : Byte) (x : List Byte), token b w e ++ x ≠ [] :=
    fun b w e x hnil => token_ne_nil b w e (List.append_eq_nil_iff.mp hnil).1
  cases ht with
  | nil =>
    refine ⟨k, h.left (fun _ _ => rfl) h.text h.slot, fun fuel => ?_⟩
    rw [configParseFrom, h.head_nul]
    rfl
  | @comment w hw =>
    have hlen : done.length + (hash :: w).length = (done ++ hash :: w).length :=
      (List.length_append ..).symm
    have hskip : skip valueChar k.text done.length = some (done ++ hash :: w).length := by
      rw [h.text, ← hlen]
      exact skip_append (List.forall_mem_cons.mpr ⟨by decide, hw⟩) (by decide)
    have hget : k.text[(done ++ hash :: w).length]? = some nul := by
      rw [h.text, ← List.append_assoc]
      exact getElem?_middle ..
    refine ⟨k, h.left (fun _ _ => rfl) h.text h.slot, fun fuel => ?_⟩
    rw [configParseFrom, h.head]
    dsimp only [bind, Option.bind_some]
    rw [if_pos rfl, hskip]
    dsimp only [Option.bind_some]
    rw [hget]
    dsimp only [Option.bind_some]
    rw [if_neg (not_not.mpr rfl), configParseFrom, hget]
    rfl
  | blanks hnil hb => exact hentry (starts_blanks hb) hnil
  | sectionCut hs hl => exact hentry hs fun hnil => hl.nonempty (List.append_eq_nil_iff.mp hnil).2
  | afterSection hs _ _ => exact hentry (hs.append (token_ne_nil _ _ _)) (hne _ _ _ _)
  | propertyCut hs _ _ => exact hentry (hs.append (token_ne_nil _ _ _)) (hne _ _ _ _)
  | afterProperty hs _ _ _ => exact hentry (hs.append (token_ne_nil _ _ _)) (hne _ _ _ _)
  | valueCut hs _ _ _ => exact hentry (hs.append (token_ne_nil _ _ _)) (hne _ _ _ _)

end End
section Whole

/-- The pieces before the entry number `n` and the text of that entry. -/
theorem Pieces.split {o : ℕ} {t t' : List Byte} {es : List ConfigEntry} (h : Pieces o t t' es) {n : ℕ}
    (hn : n < es.length) : ∃ t₁ t₁' t₂ t₂' t₃ fs e gs, t = t₁ ++ (t₂ ++ t₃) ∧ es = fs ++ e :: gs ∧
      fs.length = n ∧ Pieces o t₁ t₁' fs ∧ Starts t₂ ∧ EntryText (o + t₁.length) t₂ t₂' e := by
  induction h generalizing n with
  | nil => cases hn
  | @cons o t t' u u' es fs hp hps ih =>
    -- pieces without entry, or an entry that is not number `n`, go to the front
    have hfront : es.length ≤ n → ∃ t₁ t₁' t₂ t₂' t₃ fs' e gs, t ++ u = t₁ ++ (t₂ ++ t₃) ∧
        es ++ fs = fs' ++ e :: gs ∧ fs'.length = n ∧ Pieces o t₁ t₁' fs' ∧ Starts t₂ ∧
        EntryText (o + t₁.length) t₂ t₂' e := by
      intro hle
      rw [List.length_append] at hn
      obtain ⟨t₁, t₁', t₂, t₂', t₃, fs', e, gs, rfl, rfl, hlen, hps', hs, he⟩ :=
        ih (n := n - es.length) (by omega)
      refine ⟨t ++ t₁, t' ++ t₁', t₂, t₂', t₃, es ++ fs', e, gs, (List.append_assoc _ _ _).symm,
        (List.append_assoc _ _ _).symm, ?_, .cons hp hps', hs, ?_⟩
      · rw [List.length_append]
        omega
      · rw [List.length_append, ← Nat.add_assoc]
        exact he
    cases hp with
    | comment hw => exact hfront (Nat.zero_le n)
    | empty => exact hfront (Nat.zero_le n)
    | @entry _ _ e hs he =>
      by_cases hzero : n = 0
      · exact ⟨[], [], t, t', u, [], e, fs, rfl, rfl, hzero.symm, .nil o, hs, he⟩
      · exact hfront (Nat.one_le_iff_ne_zero.mpr hzero)

/-- The index after config_parse, for a text with the entries `es` and what follows them. -/
structure Parsed (k : Config) (es : List ConfigEntry) (rest : Rest) : Prop where
  items : ∀ j e, j < configIndexSize → es[j]? = some e → k.configIndex j = e.item ∧ e.In k.text
  slot : es.length < configIndexSize → rest.Leaves (k.configIndex es.length)
  later : ∀ j, es.length < j → j < configIndexSize → k.configIndex j = ⟨none, none, none⟩

/-- The index before config_parse is cleared. -/
theorem reading_start (r : List Byte) :
    Reading ⟨r ++ [nul], fun _ => ⟨none, none, none⟩⟩ [] r [] where
  text := rfl
  items _ := rfl
  strings _ he := absurd he List.not_mem_nil

variable {t t' u : List Byte} {es : List ConfigEntry} {rest : Rest}

theorem configParse_short (hp : Pieces 0 t t' es) (ht : Tail u rest) (hn : nul ∉ t ++ u)
    (hlen : es.length < configIndexSize) : ∃ k, Left k es rest ∧
      ∀ fuel, (t ++ u).length + 2 ≤ fuel → configParse fuel (t ++ u ++ [nul]) = some k := by
  obtain ⟨k₁, n, hle, hr₁, hc₁⟩ := (reading_start (t ++ u)).pieces hp hn
    (by rwa [List.length_nil, Nat.zero_add])
  obtain ⟨k, hleft, hc⟩ := hr₁.tail ht fun hm => hn (List.mem_append_right _ hm)
  refine ⟨k, hleft, fun fuel hfuel => ?_⟩
  rw [List.length_append] at hfuel
  obtain ⟨m, rfl⟩ : ∃ m, fuel = m + 2 + n := ⟨fuel - 2 - n, by omega⟩
  exact (hc₁ (m + 2)).trans (hc m)

/-- The index fills up with the last of its slots. -/
theorem configParse_full {t₁ t₁' t₂ t₂' t₃ : List Byte} {fs : List ConfigEntry} {e : ConfigEntry}
    (hp : Pieces 0 t₁ t₁' fs) (hs : Starts t₂) (he : EntryText t₁.length t₂ t₂' e)
    (hn : nul ∉ t₁ ++ (t₂ ++ t₃)) (hlen : fs.length + 1 = configIndexSize) :
    ∃ k, (∀ j f, (fs ++ [e])[j]? = some f → k.configIndex j = f.item ∧ f.In k.text) ∧
      ∀ fuel, (t₁ ++ (t₂ ++ t₃)).length + 2 ≤ fuel →
        configParse fuel (t₁ ++ (t₂ ++ t₃) ++ [nul]) = some k := by
  obtain ⟨k₁, n, hle, hr₁, hc₁⟩ := (reading_start (t₁ ++ (t₂ ++ t₃))).pieces hp hn
    (by rw [List.length_nil]; omega)
  rw [List.nil_append, List.nil_append] at hr₁
  rw [← hp.length] at he
  have hne : t₂ ≠ [] := List.ne_nil_of_length_pos (Piece.entry hs he).length_pos
  obtain ⟨k, hk, hr⟩ := hr₁.entry he
  refine ⟨k, fun j f hf => ⟨?_, ?_⟩, fun fuel hfuel => ?_⟩
  · rw [hr.items, hf]
    rfl
  · rw [hr.text]
    exact (hr.strings f (List.mem_of_getElem? hf)).mono _
  · rw [List.length_append] at hfuel
    obtain ⟨m, rfl⟩ : ∃ m, fuel = m + 1 + n := ⟨fuel - 1 - n, by omega⟩
    refine (hc₁ (m + 1)).trans ?_
    rw [List.nil_append, List.nil_append,
      configParseFrom_entry hr₁ (hs.append hne) (fun hm => hn (List.mem_append_right _ hm))
        (by simp [hne]), hk]
    exact if_pos hlen

/-- config_parse returns, and does not access the text behind its NUL. -/
theorem configParse_spec (hp : Pieces 0 t t' es) (ht : Tail u rest) (hn : nul ∉ t ++ u) :
    ∃ k, Parsed k es rest ∧
      ∀ fuel, (t ++ u).length + 2 ≤ fuel → configParse fuel (t ++ u ++ [nul]) = some k := by
  by_cases hlen : es.length < configIndexSize
  · obtain ⟨k, hleft, hk⟩ := configParse_short hp ht hn hlen
    exact ⟨k, ⟨fun j e _ he => ⟨hleft.items j e he, hleft.strings e (List.mem_of_getElem? he)⟩,
      fun _ => hleft.slot, fun j hj _ => hleft.later j hj⟩, hk⟩
  · obtain ⟨t₁, t₁', t₂, t₂', t₃, fs, e, gs, rfl, rfl, hfs, hp₁, hs, he⟩ :=
      hp.split (n := configIndexSize - 1) (by unfold configIndexSize at *; omega)
    rw [Nat.zero_add] at he
    rw [List.append_assoc, List.append_assoc] at hn
    obtain ⟨k, hitems, hk⟩ := configParse_full hp₁ hs he hn (by rw [hfs]; rfl)
    refine ⟨k, ⟨fun j f hj hf => hitems j f ?_, fun hlt => absurd hlt hlen, fun j hj hlt => ?_⟩,
      fun fuel hfuel => ?_⟩
    · have hone : fs ++ e :: gs = fs ++ [e] ++ gs := by simp
      rw [hone, List.getElem?_append_left] at hf
      · exact hf
      · rw [List.length_append, List.length_singleton, hfs]
        exact hj
    · omega
    · rw [List.append_assoc, List.append_assoc] at hfuel
      rw [List.append_assoc t₁, List.append_assoc t₂]
      exact hk fuel hfuel

end Whole
end Pinion64
