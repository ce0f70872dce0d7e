import Pinion64.ConfigIndex

/-! The lines of a configuration: the entries that stand on one line each, and the texts from which
config_parse takes just these. -/
namespace Pinion64
open Config

section Lines

/-- Blanks, a word and the rest of a line. -/
structure LineField where
  blanks : List Byte
  word : List Byte
  rest : List Byte

def lineField (line : List Byte) : LineField :=
  ⟨line.takeWhile blankChar, (line.dropWhile blankChar).takeWhile fieldChar,
    (line.dropWhile blankChar).dropWhile fieldChar⟩

/-- The entry of a line at offset `o`. A line is a comment also when it is indented. -/
def lineEntry (o : ℕ) (line : List Byte) : Option ConfigEntry :=
  let s := lineField line
  let p := lineField s.rest
  let blanks := p.rest.takeWhile blankChar
  let value := p.rest.dropWhile blankChar
  if s.word.head? = some hash ∨ s.word = [] ∨ p.word = [] ∨ value = [] then none
  else
    let sectionAt := o + s.blanks.length
    let propertyAt := sectionAt + s.word.length + p.blanks.length
    some ⟨sectionAt, s.word, propertyAt, p.word, propertyAt + p.word.length + blanks.length, value⟩

def entriesOf : ℕ → List (List Byte) → List ConfigEntry
  | _, [] => []
  | o, l :: ls => (lineEntry o l).toList ++ entriesOf (o + l.length + 1) ls

/-- The entries that stand on one line each, of a text at offset `o`. -/
def lineEntriesAt (o : ℕ) (r : List Byte) : List ConfigEntry := entriesOf o (r.splitOn newline)

def lineEntries (r : List Byte) : List ConfigEntry := lineEntriesAt 0 r

variable {o : ℕ} {l r : List Byte} {e : ConfigEntry}

theorem lineEntriesAt_line (hl : newline ∉ l) (o : ℕ) (r : List Byte) :
    lineEntriesAt o (l ++ newline :: r) =
      (lineEntry o l).toList ++ lineEntriesAt (o + l.length + 1) r := by
  rw [lineEntriesAt, List.splitOn_append_cons_self_of_not_mem hl]
  rfl

theorem lineEntry_le (h : lineEntry o l = some e) : o ≤ e.sectionAt := by
  unfold lineEntry at h
  dsimp only at h
  split_ifs at h
  obtain rfl := Option.some.inj h
  exact Nat.le_add_right _ _

theorem entriesOf_le {ls : List (List Byte)} (h : e ∈ entriesOf o ls) : o ≤ e.sectionAt := by
  induction ls generalizing o with
  | nil => cases h
  | cons l ls ih =>
    rcases List.mem_append.mp h with h | h
    · exact lineEntry_le (Option.mem_toList.mp h)
    · have hle := ih h
      omega

theorem lineEntriesAt_le (h : e ∈ lineEntriesAt o r) : o ≤ e.sectionAt := entriesOf_le h

/-- A comment has no entry. -/
theorem lineEntry_hash (h : l.head? = some hash) : lineEntry o l = none := by
  obtain ⟨t, rfl⟩ := List.head?_eq_some_iff.mp h
  have hblank : ¬ blankChar hash = true := by decide
  have hword : (lineField (hash :: t)).word.head? = some hash := by
    change (((hash :: t).dropWhile blankChar).takeWhile fieldChar).head? = _
    rw [List.dropWhile_cons_of_neg hblank, List.takeWhile_cons_of_pos (by decide)]
    rfl
  unfold lineEntry
  rw [if_pos (Or.inl hword)]

theorem lineEntry_nil : lineEntry o [] = none := rfl

theorem valueChar_of_notMem (hn : nul ∉ l) (hl : newline ∉ l) : ∀ x ∈ l, valueChar x = true := by
  intro x hx
  simp [valueChar, ne_of_mem_of_not_mem hx hn, ne_of_mem_of_not_mem hx hl]

theorem blankChar_of_stop {c : Byte} (hf : fieldChar c = false) (hn : c ≠ nul) (hl : c ≠ newline) :
    blankChar c = true := by
  by_contra hb
  unfold blankChar at hb
  unfold fieldChar at hf
  simp_all

theorem blankChar_of_field {c : Byte} (h : fieldChar c = true) : blankChar c = false := by
  revert c
  decide +kernel

theorem lineField_eq (l : List Byte) :
    l = (lineField l).blanks ++ ((lineField l).word ++ (lineField l).rest) := by
  unfold lineField
  rw [List.takeWhile_append_dropWhile, List.takeWhile_append_dropWhile]

/-- A word with something behind it is a token. -/
theorem lineField_token (hn : nul ∉ l) (hl : newline ∉ l) (hw : (lineField l).word ≠ [])
    (hr : (lineField l).rest ≠ []) : ∃ c t, (lineField l).rest = c :: t ∧ blankChar c = true ∧
      l = token (lineField l).blanks (lineField l).word c ++ t ∧
      Token fieldChar (lineField l).blanks (lineField l).word c := by
  obtain ⟨c, t, hct⟩ := List.exists_cons_of_ne_nil hr
  have heq := lineField_eq l
  rw [hct] at heq
  have hmem : c ∈ l := by
    rw [heq]
    simp
  have hcn : c ≠ nul := fun h => hn (h ▸ hmem)
  have hcl : c ≠ newline := fun h => hl (h ▸ hmem)
  have hstop : fieldChar c = false := by
    have h := List.head?_dropWhile_not fieldChar (l.dropWhile blankChar)
    rw [show (l.dropWhile blankChar).dropWhile fieldChar = c :: t from hct] at h
    simpa using h
  have hbody : ∀ x ∈ (lineField l).word, fieldChar x = true := fun x hx => List.mem_takeWhile_imp hx
  refine ⟨c, t, hct, blankChar_of_stop hstop hcn hcl, ?_, ?_, hbody, hstop, hcn, ?_⟩
  · exact heq.trans (by simp [token])
  · exact fun x hx => List.mem_takeWhile_imp hx
  · obtain ⟨d, w, hd⟩ := List.exists_cons_of_ne_nil hw
    intro x hx
    rw [hd] at hx hbody
    obtain rfl := Option.some.inj hx
    exact blankChar_of_field (hbody d (List.mem_cons_self ..))

theorem lineField_cons {c : Byte} (hb : blankChar c = true) (t : List Byte) :
    lineField (c :: t) = ⟨c :: (lineField t).blanks, (lineField t).word, (lineField t).rest⟩ := by
  unfold lineField
  rw [List.takeWhile_cons_of_pos hb, List.dropWhile_cons_of_pos hb]

theorem starts_token {b w : List Byte} {c : Byte} (h : Token fieldChar b w c) (hw : w ≠ [])
    (hh : w.head? ≠ some hash) : Starts (token b w c) := by
  obtain ⟨d, w, rfl⟩ := List.exists_cons_of_ne_nil hw
  cases b with
  | nil =>
    intro x hx
    obtain rfl := Option.some.inj hx
    refine ⟨fun hd => hh (congrArg some hd), ?_⟩
    rintro rfl
    exact absurd (h.body newline (List.mem_cons_self ..)) (by decide)
  | cons x b =>
    exact (starts_blanks h.blanks).append (List.cons_ne_nil _ _)

theorem entryText_of_eq {t t' : List Byte} {e e' : ConfigEntry} (h : EntryText o t t' e)
    (he : e = e') :
    EntryText o t t' e' :=
  he ▸ h

/-- The value of a line is a token with the newline behind it. -/
theorem value_token (hn : nul ∉ r) (hl : newline ∉ r) (hv : r.dropWhile blankChar ≠ []) :
    r ++ [newline] = token (r.takeWhile blankChar) (r.dropWhile blankChar) newline ∧
      Token valueChar (r.takeWhile blankChar) (r.dropWhile blankChar) newline := by
  constructor
  · rw [token, ← List.append_assoc, List.takeWhile_append_dropWhile]
  refine ⟨fun x hx => List.mem_takeWhile_imp hx, fun x hx => ?_, by decide, by decide, ?_⟩
  · exact valueChar_of_notMem hn hl x (List.dropWhile_subset _ hx)
  · obtain ⟨d, w, hd⟩ := List.exists_cons_of_ne_nil hv
    have h := List.head?_dropWhile_not blankChar r
    rw [hd] at h ⊢
    intro x hx
    obtain rfl := Option.some.inj hx
    simpa using h

/-- The entry of a line is what config_parse reads there. -/
theorem lineEntry_text (hn : nul ∉ l) (hl : newline ∉ l) (h : lineEntry o l = some e) :
    Starts l ∧ ∃ t', EntryText o (l ++ [newline]) t' e := by
  unfold lineEntry at h
  dsimp only at h
  split_ifs at h with hcond
  rw [not_or, not_or, not_or] at hcond
  obtain ⟨hhash, hs, hp, hv⟩ := hcond
  -- the section
  obtain ⟨c₁, t₁, hrest₁, hblank₁, heq₁, htok₁⟩ := lineField_token hn hl hs (by
    intro hr
    rw [hr] at hp
    exact hp rfl)
  have hsub₁ : ∀ x ∈ t₁, x ∈ l := by
    intro x hx
    rw [heq₁]
    exact List.mem_append_right _ hx
  have hn₁ : nul ∉ t₁ := fun hx => hn (hsub₁ _ hx)
  have hl₁ : newline ∉ t₁ := fun hx => hl (hsub₁ _ hx)
  rw [hrest₁, lineField_cons hblank₁] at h hp hv
  -- the property
  obtain ⟨c₂, t₂, hrest₂, hblank₂, heq₂, htok₂⟩ := lineField_token hn₁ hl₁ hp (by
    intro hr
    rw [hr] at hv
    exact hv rfl)
  have hsub₂ : ∀ x ∈ t₂, x ∈ t₁ := by
    intro x hx
    rw [heq₂]
    exact List.mem_append_right _ hx
  dsimp only at h hv
  rw [hrest₂, List.takeWhile_cons_of_pos hblank₂, List.dropWhile_cons_of_pos hblank₂] at h
  rw [hrest₂, List.dropWhile_cons_of_pos hblank₂] at hv
  -- the value
  obtain ⟨heq₃, htok₃⟩ := value_token (fun hx => hn₁ (hsub₂ _ hx)) (fun hx => hl₁ (hsub₂ _ hx)) hv
  constructor
  · rw [heq₁]
    exact (starts_token htok₁ hs hhash).append (token_ne_nil _ _ _)
  · have htext := EntryText.mk o htok₁ htok₂ htok₃
    rw [← heq₃, ← List.append_assoc (token _ _ c₂), ← heq₂, ← List.append_assoc, ← heq₁] at htext
    refine ⟨_, entryText_of_eq htext ?_⟩
    rw [← Option.some.inj h]
    simp only [token_length, List.length_cons, ConfigEntry.mk.injEq, true_and, and_true]
    omega

end Lines
section Faithful

/-- The slots that config_read visits are the entries, as far as there are slots. -/
structure Faithful (k : Config) (es : List ConfigEntry) : Prop where
  items : ∀ j e, j < configIndexSize → es[j]? = some e → k.configIndex j = e.item ∧ e.In k.text
  visible : ∀ j, k.Visible j → j < es.length

/-- The texts that are read line by line: up to the last slot every line is empty, a comment or has
an entry, and what follows the last of these lines neither has an entry nor leaves a section. -/
inductive Clean : ℕ → List Byte → Prop
  | full {n : ℕ} (rest : List Byte) (hn : configIndexSize ≤ n) : Clean n rest
  | skipped {n : ℕ} {l rest : List Byte} (hl : newline ∉ l) (hg : l = [] ∨ l.head? = some hash)
      (h : Clean n rest) : Clean n (l ++ newline :: rest)
  | entry {n : ℕ} {l rest : List Byte} (hl : newline ∉ l) (he : (lineEntry 0 l).isSome)
      (h : Clean (n + 1) rest) : Clean n (l ++ newline :: rest)
  | last {n : ℕ} {rest : List Byte} {kind : Rest} (ht : Tail rest kind) (hk : kind ≠ .dangling)
      (he : lineEntries rest = []) : Clean n rest

variable {k : Config} {o : ℕ} {r t t' u u' l rest : List Byte} {es fs : List ConfigEntry} {kind : Rest}

theorem Pieces.append (h : Pieces o t t' es) (hu : Pieces (o + t.length) u u' fs) :
    Pieces o (t ++ u) (t' ++ u') (es ++ fs) := by
  induction h with
  | nil => exact hu
  | @cons o t t' v v' es gs hp _ ih =>
    rw [List.length_append, ← Nat.add_assoc] at hu
    rw [List.append_assoc, List.append_assoc, List.append_assoc]
    exact .cons hp (ih hu)

theorem Pieces.snoc (h : Pieces o t t' es) (hu : Piece (o + t.length) u u' fs) :
    Pieces o (t ++ u) (t' ++ u') (es ++ fs) := by
  have hone := Pieces.cons hu (.nil _)
  rw [List.append_nil, List.append_nil, List.append_nil] at hone
  exact h.append hone

/-- A line without entry that config_parse goes over. -/
theorem skipped_piece (hn : nul ∉ l) (hl : newline ∉ l) (hg : l = [] ∨ l.head? = some hash) (o : ℕ) :
    Piece o (l ++ [newline]) (l ++ [newline]) [] := by
  rcases hg with rfl | hh
  · exact .empty o
  · obtain ⟨w, rfl⟩ := List.head?_eq_some_iff.mp hh
    exact .comment o fun x hx => valueChar_of_notMem hn hl x (List.mem_cons_of_mem _ hx)

theorem lineEntry_skipped (hg : l = [] ∨ l.head? = some hash) (o : ℕ) : lineEntry o l = none := by
  rcases hg with rfl | hh
  · exact lineEntry_nil
  · exact lineEntry_hash hh

theorem entry_piece {e : ConfigEntry} (hn : nul ∉ l) (hl : newline ∉ l) (h : lineEntry o l = some e) :
    ∃ t', Piece o (l ++ [newline]) t' [e] := by
  obtain ⟨hs, t', ht⟩ := lineEntry_text hn hl h
  have hne : l ≠ [] := by
    rintro rfl
    cases h
  exact ⟨t', .entry (hs.append hne) ht⟩

/-- Where a line begins is of no account for its strings. -/
def ConfigEntry.strings (e : ConfigEntry) : List Byte × List Byte × List Byte :=
  (e.sectionName, e.property, e.value)

def lineStrings (l : List Byte) : Option (List Byte × List Byte × List Byte) :=
  (lineEntry 0 l).map ConfigEntry.strings

theorem lineEntry_strings (o : ℕ) (l : List Byte) :
    (lineEntry o l).map ConfigEntry.strings = lineStrings l := by
  unfold lineStrings lineEntry
  dsimp only
  split_ifs
  · rfl
  · rfl

theorem entriesOf_strings (o : ℕ) (ls : List (List Byte)) :
    (entriesOf o ls).map ConfigEntry.strings = ls.filterMap lineStrings := by
  induction ls generalizing o with
  | nil => rfl
  | cons l ls ih =>
    rw [entriesOf, List.map_append, ih, ← Option.toList_map, lineEntry_strings]
    cases h : lineStrings l with
    | none => rw [List.filterMap_cons_none h]; rfl
    | some s => rw [List.filterMap_cons_some h]; rfl

theorem lineEntriesAt_strings (o : ℕ) (r : List Byte) :
    (lineEntriesAt o r).map ConfigEntry.strings = (r.splitOn newline).filterMap lineStrings :=
  entriesOf_strings o _

theorem lineEntriesAt_nil (h : lineEntriesAt o r = []) (o' : ℕ) : lineEntriesAt o' r = [] := by
  rw [← List.map_eq_nil_iff (f := ConfigEntry.strings), lineEntriesAt_strings,
    ← lineEntriesAt_strings o]
  exact congrArg _ h

theorem lineEntry_isSome (h : (lineEntry 0 l).isSome) (o : ℕ) : ∃ e, lineEntry o l = some e := by
  rw [← Option.isSome_iff_exists, ← Option.isSome_map (f := ConfigEntry.strings), lineEntry_strings,
    lineStrings, Option.isSome_map]
  exact h

theorem Parsed.faithful (h : Parsed k es kind)
    (hno : kind ≠ .dangling ∨ configIndexSize ≤ es.length) : Faithful k es where
  items := h.items
  visible j hv := by
    rcases h.visible_cases hv with hlt | ⟨rfl, hk⟩
    · exact hlt
    · rcases hno with hno | hno
      · exact absurd hk hno
      · exact absurd hv.1 (Nat.not_lt.mpr hno)

/-- A full index does not depend on what follows. -/
theorem Faithful.full (h : Faithful k (es ++ fs)) (hlen : configIndexSize ≤ es.length)
    (gs : List ConfigEntry) : Faithful k (es ++ gs) where
  items j e hj he := by
    refine h.items j e hj ?_
    rwa [List.getElem?_append_left (by omega)] at he ⊢
  visible j hv := by
    rw [List.length_append]
    have hj := hv.1
    omega

/-- What config_parse makes of the text, however it is taken apart. -/
def Parses (k : Config) (r : List Byte) : Prop :=
  ∀ t t' es u rest, r = t ++ u → Pieces 0 t t' es → Tail u rest → Parsed k es rest

theorem Parses.front (hk : Parses k r) (hn : nul ∉ r) (hr : r = t ++ rest) (hp : Pieces 0 t t' es) :
    ∃ fs kind, Parsed k (es ++ fs) kind := by
  obtain ⟨u, u', fs, v, kind, rfl, hu, hv⟩ :=
    exists_pieces (r := rest) (fun h => hn (hr ▸ List.mem_append_right _ h)) (0 + t.length)
  exact ⟨fs, kind, hk _ _ _ v kind (by rw [hr, List.append_assoc]) (hp.append hu) hv⟩

/-- A text that is read line by line gives just the entries of its lines. -/
theorem Clean.faithful {n : ℕ} (hc : Clean n rest) (hk : Parses k r) (hn : nul ∉ r)
    (hr : r = t ++ rest) (hp : Pieces 0 t t' es) (hlen : es.length = n) :
    Faithful k (es ++ lineEntriesAt t.length rest) := by
  induction hc generalizing t t' es with
  | full rest hfull =>
    obtain ⟨fs, kind, hparsed⟩ := hk.front hn hr hp
    have hle : configIndexSize ≤ es.length := hlen ▸ hfull
    refine (hparsed.faithful (Or.inr ?_)).full hle _
    rw [List.length_append]
    omega
  | @skipped n l rest hl hg _ ih =>
    have hnl : nul ∉ l := fun h => hn (hr ▸ List.mem_append_right _ (List.mem_append_left _ h))
    have hone := ih (by rw [hr]; simp) (hp.snoc (skipped_piece hnl hl hg _))
      (by rwa [List.append_nil])
    rw [lineEntriesAt_line hl, lineEntry_skipped hg]
    simpa [Nat.add_assoc] using hone
  | @entry n l rest hl he _ ih =>
    have hnl : nul ∉ l := fun h => hn (hr ▸ List.mem_append_right _ (List.mem_append_left _ h))
    obtain ⟨e, he⟩ := lineEntry_isSome he (0 + t.length)
    obtain ⟨t', hpiece⟩ := entry_piece hnl hl he
    have hone := ih (by rw [hr]; simp) (hp.snoc hpiece)
      (by rw [List.length_append, List.length_singleton, hlen])
    rw [Nat.zero_add] at he
    rw [lineEntriesAt_line hl, he]
    simpa [Nat.add_assoc] using hone
  | last ht hkind he =>
    rw [lineEntriesAt_nil he, List.append_nil]
    exact (hk _ _ _ _ _ hr hp ht).faithful (Or.inl hkind)

/-- The section of an entry begins on the line where the entry is read from. -/
theorem EntryText.sectionAt_le {e : ConfigEntry} (h : EntryText o t t' e)
    (heq : t ++ u = l ++ newline :: rest) : e.sectionAt ≤ o + l.length := by
  obtain ⟨⟩ := h
  rename_i b₁ w₁ b₂ w₂ b₃ w₃ e₁ e₂ e₃ h₁ h₂ h₃
  refine Nat.add_le_add_left ?_ o
  by_contra hlt
  have hget : b₁[l.length]? = some newline := by
    have hone : (l ++ newline :: rest)[l.length]? = some newline := getElem?_middle ..
    rw [← heq, token, List.append_assoc, List.append_assoc,
      List.getElem?_append_left (by omega)] at hone
    exact hone
  exact absurd (h₁.blanks newline (List.mem_of_getElem? hget)) (by decide)

theorem EntryText.newline_mem {e : ConfigEntry} (h : EntryText o t t' e) : newline ∈ t := by
  obtain ⟨⟩ := h
  rename_i b₁ w₁ b₂ w₂ b₃ w₃ e₁ e₂ e₃ h₁ h₂ h₃
  have he : e₃ = newline := by
    by_contra hne
    have hstop := h₃.stop
    simp [valueChar, hne, h₃.notNul] at hstop
  rw [he]
  simp [token]

/-- A text without newline is a tail. -/
theorem exists_tail (hn : nul ∉ rest) (hl : newline ∉ rest) : ∃ kind, Tail rest kind := by
  by_cases hh : rest.head? = some hash
  · obtain ⟨w, rfl⟩ := List.head?_eq_some_iff.mp hh
    exact ⟨_, .comment fun x hx => valueChar_of_notMem hn hl x (List.mem_cons_of_mem _ hx)⟩
  · have hs : Starts rest := by
      intro c hc
      refine ⟨fun h => hh (h ▸ hc), fun h => hl (h ▸ List.mem_of_mem_head? hc)⟩
    rcases starts_cases hn hs 0 with htail | ⟨t, t', e, u, rfl, -, he⟩
    · exact htail
    · exact absurd (List.mem_append_left _ he.newline_mem) hl

/-- The end of the text, if the index is faithful. -/
theorem Faithful.last {es' : List ConfigEntry} (hf : Faithful k es') (hp : Parsed k es kind)
    (hes : es' = es ++ lineEntriesAt o rest) (hlen : es.length < configIndexSize) :
    kind ≠ .dangling ∧ lineEntries rest = [] := by
  have hslot := hp.slot hlen
  cases hline : lineEntriesAt o rest with
  | nil =>
    refine ⟨?_, lineEntriesAt_nil hline 0⟩
    rintro rfl
    have hlt := hf.visible es.length (hp.visible hlen le_rfl hslot.1)
    rw [hes, hline, List.append_nil] at hlt
    exact absurd hlt (Nat.lt_irrefl _)
  | cons e gs =>
    have hitem := (hf.items es.length e hlen (by rw [hes, hline]; simp)).1
    rw [hitem] at hslot
    cases kind with
    | clean => exact absurd (congrArg ConfigItem.sectionAt hslot) (Option.some_ne_none _)
    | cut => exact absurd hslot (Option.some_ne_none _)
    | dangling => exact absurd hslot.2 (Option.some_ne_none _)

/-- The entry that is read next is the next one of a line, if the index is faithful. -/
theorem Faithful.next {es' : List ConfigEntry} {e : ConfigEntry} (hf : Faithful k es')
    (hp : Parsed k (es ++ e :: fs) kind) (hes : es' = es ++ lineEntriesAt o rest)
    (hlen : es.length < configIndexSize) :
    ∃ e' ∈ lineEntriesAt o rest, e'.sectionAt = e.sectionAt := by
  have hitem := (hp.items es.length e hlen (by simp)).1
  have hv : k.Visible es.length :=
    hp.visible hlen (by simp) (by rw [hitem]; exact Option.some_ne_none _)
  have hlt := hf.visible _ hv
  cases hline : lineEntriesAt o rest with
  | nil =>
    rw [hes, hline, List.append_nil] at hlt
    exact absurd hlt (Nat.lt_irrefl _)
  | cons e' gs =>
    have hitem' := (hf.items es.length e' hlen (by rw [hes, hline]; simp)).1
    refine ⟨e', List.mem_cons_self .., ?_⟩
    rw [hitem] at hitem'
    exact (Option.some.inj (congrArg ConfigItem.sectionAt hitem')).symm

/-- Conversely, the text behind pieces that have been read faithfully is read line by line. -/
theorem Parses.clean (hk : Parses k r) (hn : nul ∉ r) (hf : Faithful k (lineEntries r))
    (hr : r = t ++ rest) (hp : Pieces 0 t t' es)
    (hes : lineEntries r = es ++ lineEntriesAt t.length rest) : Clean es.length rest := by
  obtain ⟨n, hlen⟩ : ∃ n, rest.length = n := ⟨_, rfl⟩
  induction n using Nat.strong_induction_on generalizing t t' es rest with
  | h n ih =>
    by_cases hfull : configIndexSize ≤ es.length
    · exact .full rest hfull
    have hlast : ∀ kind, Tail rest kind → Clean es.length rest := by
      intro kind ht
      obtain ⟨hkind, he⟩ := hf.last (hk _ _ _ _ _ hr hp ht) hes (Nat.not_le.mp hfull)
      exact .last ht hkind he
    have hnr : nul ∉ rest := fun h => hn (hr ▸ List.mem_append_right _ h)
    rcases valueChar_cases hnr with hv | ⟨l, rest', rfl, hv⟩
    · have hl : newline ∉ rest := fun h => absurd (hv _ h) (by decide)
      obtain ⟨kind, ht⟩ := exists_tail hnr hl
      exact hlast kind ht
    have hl : newline ∉ l := fun h => absurd (hv _ h) (by decide)
    have hnl : nul ∉ l := fun h => hnr (List.mem_append_left _ h)
    have hlt : rest'.length < n := by
      rw [← hlen, List.length_append, List.length_cons]
      omega
    have hr' : r = t ++ (l ++ [newline]) ++ rest' := by
      rw [hr]
      simp
    rw [lineEntriesAt_line hl] at hes
    by_cases hg : l = [] ∨ l.head? = some hash
    · rw [lineEntry_skipped hg] at hes
      have hone := ih _ hlt hr' (hp.snoc (skipped_piece hnl hl hg _))
        (by simpa [Nat.add_assoc] using hes) rfl
      rw [List.append_nil] at hone
      exact .skipped hl hg hone
    by_cases he : (lineEntry 0 l).isSome
    · obtain ⟨e, he'⟩ := lineEntry_isSome he t.length
      rw [he'] at hes
      obtain ⟨t₁, hpiece⟩ := entry_piece hnl hl he'
      rw [← Nat.zero_add t.length] at hpiece
      have hone := ih _ hlt hr' (hp.snoc hpiece) (by simpa [Nat.add_assoc] using hes) rfl
      rw [List.length_append] at hone
      exact .entry hl he hone
    -- a malformed line: what is read from it is no entry of a line
    have hnone : lineEntry t.length l = none := by
      cases h : lineEntry t.length l with
      | none => rfl
      | some e =>
        refine absurd ?_ he
        rw [← Option.isSome_map (f := ConfigEntry.strings), ← lineStrings,
          ← lineEntry_strings t.length, h]
        rfl
    rw [hnone] at hes
    have hs : Starts (l ++ newline :: rest') := by
      refine Starts.append (fun c hc => ?_) fun h => hg (Or.inl h)
      exact ⟨fun h => hg (Or.inr (h ▸ hc)), fun h => hl (h ▸ List.mem_of_mem_head? hc)⟩
    rcases starts_cases hnr hs (0 + t.length) with ⟨kind, ht⟩ | ⟨t₁, t₁', e, u, heq, hst, he⟩
    · exact hlast kind ht
    · obtain ⟨fs, kind, hparsed⟩ := hk.front hn (by rw [hr, heq, List.append_assoc])
        (hp.snoc (.entry hst he))
      rw [List.append_assoc] at hparsed
      obtain ⟨e', hmem, hat⟩ := hf.next hparsed hes (Nat.not_le.mp hfull)
      have hge := lineEntriesAt_le hmem
      have hle := he.sectionAt_le heq.symm
      omega

end Faithful
section Malformed
variable {k k' : Config} {r r' l : List Byte} {es es' : List ConfigEntry}

/-- The text with a line inserted, in front of another one or behind the last. -/
inductive Inserted (l : List Byte) : List Byte → List Byte → Prop
  | before (x y : List Byte) (hx : x = [] ∨ ∃ z, x = z ++ [newline]) :
      Inserted l (x ++ y) (x ++ (l ++ newline :: y))
  | behind (x : List Byte) (hx : x = [] ∨ ∃ z, x = z ++ [newline]) : Inserted l x (x ++ l)

/-- config_read visits as many slots in both, with the same strings. -/
def SameEntries (k k' : Config) : Prop :=
  ∀ j, (k.Visible j ↔ k'.Visible j) ∧ (k.Visible j → k.sectionString j = k'.sectionString j ∧
    k.propertyString j = k'.propertyString j ∧ k.valueString j = k'.valueString j)

theorem lineStrings_malformed (h : lineEntry 0 l = none) : lineStrings l = none := by
  rw [lineStrings, h]
  rfl

/-- A line without entry changes nothing for the other lines. -/
theorem Inserted.strings (h : Inserted l r r') (hl : newline ∉ l) (hm : lineEntry 0 l = none) :
    (lineEntries r').map ConfigEntry.strings = (lineEntries r).map ConfigEntry.strings := by
  rw [lineEntries, lineEntries, lineEntriesAt_strings, lineEntriesAt_strings]
  have hnone := lineStrings_malformed hm
  have hempty : lineStrings [] = none := rfl
  cases h with
  | before x y hx =>
    rcases hx with rfl | ⟨z, rfl⟩
    · rw [List.nil_append, List.nil_append, List.splitOn_append_cons_self_of_not_mem hl,
        List.filterMap_cons_none hnone]
    · rw [List.append_assoc, List.append_assoc, List.singleton_append, List.singleton_append,
        List.splitOn_append_cons_self, List.splitOn_append_cons_self, List.splitOn_eq_singleton hl,
        List.splitOn_append_cons_self, List.singleton_append, List.filterMap_append,
        List.filterMap_append, List.filterMap_cons_none hnone]
  | behind x hx =>
    rcases hx with rfl | ⟨z, rfl⟩
    · rw [List.nil_append, List.splitOn_eq_singleton hl, List.splitOn_nil,
        List.filterMap_cons_none hnone, List.filterMap_cons_none hempty]
    · rw [List.append_assoc, List.singleton_append, List.splitOn_append_cons_self,
        List.splitOn_append_cons_self, List.splitOn_eq_singleton hl, List.splitOn_nil,
        List.filterMap_append, List.filterMap_append, List.filterMap_cons_none hnone,
        List.filterMap_cons_none hempty]

theorem Faithful.visible_iff (h : Faithful k es) (j : ℕ) :
    k.Visible j ↔ j < configIndexSize ∧ j < es.length := by
  constructor
  · exact fun hv => ⟨hv.1, h.visible j hv⟩
  · rintro ⟨hj, hlt⟩
    refine ⟨hj, fun i hi => ?_⟩
    rw [(h.items i _ (by omega) (List.getElem?_eq_getElem (by omega))).1]
    exact Option.some_ne_none _

theorem Faithful.same (h : Faithful k es) (h' : Faithful k' es')
    (hs : es.map ConfigEntry.strings = es'.map ConfigEntry.strings) : SameEntries k k' := by
  have hlen : es.length = es'.length := by
    have hone := congrArg List.length hs
    rwa [List.length_map, List.length_map] at hone
  refine fun j => ⟨?_, fun hv => ?_⟩
  · rw [h.visible_iff, h'.visible_iff, hlen]
  · obtain ⟨hj, hlt⟩ := (h.visible_iff j).mp hv
    have hlt' : j < es'.length := hlen ▸ hlt
    obtain ⟨hi, he⟩ := h.items j _ hj (List.getElem?_eq_getElem hlt)
    obtain ⟨hi', he'⟩ := h'.items j _ hj (List.getElem?_eq_getElem hlt')
    obtain ⟨h₁, h₂, h₃⟩ := he.strings hi
    obtain ⟨h₁', h₂', h₃'⟩ := he'.strings hi'
    have hget : (es[j]).strings = (es'[j]).strings := by
      have hone := congrArg (fun l => l[j]?) hs
      simpa [hlt, hlt'] using hone
    obtain ⟨hsec, hpair⟩ := Prod.mk.inj hget
    obtain ⟨hprop, hval⟩ := Prod.mk.inj hpair
    exact ⟨h₁.trans (hsec ▸ h₁'.symm), h₂.trans (hprop ▸ h₂'.symm), h₃.trans (hval ▸ h₃'.symm)⟩

theorem Parses.faithful_iff (hk : Parses k r) (hn : nul ∉ r) :
    Faithful k (lineEntries r) ↔ Clean 0 r := by
  constructor
  · exact fun hf => hk.clean hn hf (t := []) rfl (.nil 0) rfl
  · exact fun hc => hc.faithful hk hn (t := []) rfl (.nil 0) rfl

/-- The slots that config_read visits are the entries that stand on one line each if and only if
the text is read line by line, and then a line without entry is of no account for the others. -/
theorem config_lines_faithful (r : List Byte) (hn : nul ∉ r) :
    ∃ k, (∀ fuel, r.length + 2 ≤ fuel → configParse fuel (r ++ [nul]) = some k) ∧
      (Faithful k (lineEntries r) ↔ Clean 0 r) ∧
      ∀ l r' k', Clean 0 r → Clean 0 r' → nul ∉ r' → Inserted l r r' → newline ∉ l →
        lineEntry 0 l = none → configParse (r'.length + 2) (r' ++ [nul]) = some k' →
        SameEntries k k' := by
  obtain ⟨k, hfuel, hk⟩ := configParse_exists hn
  refine ⟨k, hfuel, Parses.faithful_iff hk hn, fun l r' k' hc hc' hn' hins hl hm hk' => ?_⟩
  obtain ⟨k₁, hfuel₁, hk₁⟩ := configParse_exists hn'
  obtain rfl : k' = k₁ := Option.some.inj (hk'.symm.trans (hfuel₁ _ le_rfl))
  have hf : Faithful k (lineEntries r) := (Parses.faithful_iff hk hn).mpr hc
  have hf' : Faithful k' (lineEntries r') := (Parses.faithful_iff hk₁ hn').mpr hc'
  exact hf.same hf' (hins.strings hl hm).symm

theorem clean_abc : Clean 0 (bytes "a b c\n") :=
  .entry (l := bytes "a b c") (by decide) (by decide +kernel)
    (.last .nil (fun h => nomatch h) rfl)

/-- The line `a b c` is read, and with a comment in front of it as well. -/
theorem config_lines_faithful_abc : ∃ k k',
    (∀ fuel, 8 ≤ fuel → configParse fuel (bytes "a b c\n" ++ [nul]) = some k) ∧
      Faithful k (lineEntries (bytes "a b c\n")) ∧
      configParse 11 (bytes "#d\na b c\n" ++ [nul]) = some k' ∧ SameEntries k k' := by
  obtain ⟨k, hk, hiff, hinsert⟩ := config_lines_faithful (bytes "a b c\n") (by decide)
  obtain ⟨k', hk'⟩ : ∃ k', configParse 11 (bytes "#d\na b c\n" ++ [nul]) = some k' :=
    Option.isSome_iff_exists.mp (by decide +kernel)
  have hclean : Clean 0 (bytes "#d\na b c\n") :=
    .skipped (l := bytes "#d") (by decide) (Or.inr rfl) clean_abc
  have hins : Inserted (bytes "#d") (bytes "a b c\n") (bytes "#d\na b c\n") :=
    .before [] (bytes "a b c\n") (Or.inl rfl)
  exact ⟨k, k', hk, hiff.mpr clean_abc, hk', hinsert (bytes "#d") (bytes "#d\na b c\n") k' clean_abc
    hclean (by decide) hins (by decide) (by decide +kernel) hk'⟩

/-- A line with two fields takes the next one for its value. -/
theorem config_lines_swallowed : ¬ ∀ r : List Byte, nul ∉ r →
    ∃ k, (∀ fuel, r.length + 2 ≤ fuel → configParse fuel (r ++ [nul]) = some k) ∧
      Faithful k (lineEntries r) := by
  intro h
  obtain ⟨k, hfuel, hf⟩ := h (bytes "a b\nc d e\n") (by decide)
  have hslot : (configParse 12 (bytes "a b\nc d e\n" ++ [nul])).map (fun k => k.configIndex 0) =
      some ⟨some 0, some 2, some 4⟩ := by decide +kernel
  have hline : ((lineEntries (bytes "a b\nc d e\n"))[0]?).map ConfigEntry.item =
      some ⟨some 4, some 6, some 8⟩ := by decide +kernel
  rw [hfuel 12 (by decide)] at hslot
  obtain ⟨e, he, hitem⟩ := Option.map_eq_some_iff.mp hline
  have hread : k.configIndex 0 = ⟨some 0, some 2, some 4⟩ := Option.some.inj hslot
  have hone := (hf.items 0 e (by decide) he).1
  rw [hitem, hread] at hone
  exact absurd hone (by decide)

end Malformed
end Pinion64
