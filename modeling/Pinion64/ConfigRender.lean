import Pinion64.ConfigLines

/-! Entries written one per line, between empty lines and comments, are read back. -/
namespace Pinion64
open Config

/-- A section, a property and a value that can be written on a line. -/
structure Triple where
  sectionName : List Byte
  property : List Byte
  value : List Byte
  section_nonempty : sectionName ≠ []
  section_chars : ∀ c ∈ sectionName, fieldChar c = true
  section_start : sectionName.head? ≠ some hash
  property_nonempty : property ≠ []
  property_chars : ∀ c ∈ property, fieldChar c = true
  value_nonempty : value ≠ []
  value_chars : ∀ c ∈ value, valueChar c = true
  value_start : ∀ c ∈ value.head?, blankChar c = false

/-- What stands between two fields. -/
structure FieldGap where
  chars : List Byte
  nonempty : chars ≠ []
  blank : ∀ c ∈ chars, blankChar c = true

def Triple.line (x : Triple) (g h : FieldGap) : List Byte :=
  x.sectionName ++ (g.chars ++ (x.property ++ (h.chars ++ x.value)))

/-- The texts that have the entries, one on a line, between empty lines and comments. -/
inductive Rendered : List Triple → List Byte → Prop
  | nil : Rendered [] []
  | empty {xs : List Triple} {r : List Byte} (h : Rendered xs r) : Rendered xs (newline :: r)
  | comment {xs : List Triple} {w r : List Byte} (hw : ∀ c ∈ w, valueChar c = true)
      (h : Rendered xs r) : Rendered xs (hash :: (w ++ newline :: r))
  | lastComment {w : List Byte} (hw : ∀ c ∈ w, valueChar c = true) : Rendered [] (hash :: w)
  | triple {xs : List Triple} {r : List Byte} (x : Triple) (g h : FieldGap) (hr : Rendered xs r) :
      Rendered (x :: xs) (x.line g h ++ newline :: r)

variable {x : Triple} {xs : List Triple} {r : List Byte}

/-- A field without blanks in front, and the first character of the gap behind it. -/
theorem word_token {w : List Byte} {c : Byte} {b : List Byte} (hb : ∀ x ∈ b, blankChar x = true)
    (hw : ∀ x ∈ w, fieldChar x = true) (hne : w ≠ []) (hc : blankChar c = true) :
    Token fieldChar b w c := by
  refine ⟨hb, hw, ?_, ?_, ?_⟩
  · by_contra hf
    exact absurd hc (by rw [blankChar_of_field (Bool.not_eq_false _ ▸ hf)]; decide)
  · rintro rfl
    exact absurd hc (by decide)
  · obtain ⟨d, w, rfl⟩ := List.exists_cons_of_ne_nil hne
    intro y hy
    obtain rfl := Option.some.inj hy
    exact blankChar_of_field (hw d (List.mem_cons_self ..))

/-- A line is read as the entry that is written there. -/
theorem Triple.entryText (x : Triple) (g h : FieldGap) (o : ℕ) : Starts (x.line g h ++ [newline]) ∧
    ∃ t' e, EntryText o (x.line g h ++ [newline]) t' e ∧
      e.strings = (x.sectionName, x.property, x.value) := by
  obtain ⟨c, g', hg⟩ := List.exists_cons_of_ne_nil g.nonempty
  obtain ⟨d, h', hh⟩ := List.exists_cons_of_ne_nil h.nonempty
  have hgb := g.blank
  have hhb := h.blank
  rw [hg] at hgb
  rw [hh] at hhb
  rw [List.forall_mem_cons] at hgb hhb
  have h₁ : Token fieldChar [] x.sectionName c :=
    word_token (fun _ hx => absurd hx List.not_mem_nil) x.section_chars x.section_nonempty hgb.1
  have h₂ : Token fieldChar g' x.property d :=
    word_token hgb.2 x.property_chars x.property_nonempty hhb.1
  have h₃ : Token valueChar h' x.value newline := by
    refine ⟨hhb.2, x.value_chars, by decide, by decide, ?_⟩
    obtain ⟨d, w, hd⟩ := List.exists_cons_of_ne_nil x.value_nonempty
    have hs := x.value_start
    rw [hd] at hs ⊢
    exact hs
  have hline : x.line g h ++ [newline] =
      token [] x.sectionName c ++ (token g' x.property d ++ token h' x.value newline) := by
    simp [Triple.line, token, hg, hh]
  rw [hline]
  constructor
  · exact (starts_token h₁ x.section_nonempty x.section_start).append (token_ne_nil _ _ _)
  · exact ⟨_, _, .mk o h₁ h₂ h₃, rfl⟩

theorem Triple.nul_notMem (x : Triple) (g h : FieldGap) : nul ∉ x.line g h := by
  have h₁ : nul ∉ x.sectionName := nul_notMem_of_all (by decide) x.section_chars
  have h₂ : nul ∉ x.property := nul_notMem_of_all (by decide) x.property_chars
  have h₃ : nul ∉ x.value := nul_notMem_of_all (by decide) x.value_chars
  have hg : nul ∉ g.chars := nul_notMem_of_all (by decide) g.blank
  have hh : nul ∉ h.chars := nul_notMem_of_all (by decide) h.blank
  simp [Triple.line, h₁, h₂, h₃, hg, hh]

theorem Rendered.nul_notMem (h : Rendered xs r) : nul ∉ r := by
  have hl : nul ≠ newline := by decide
  have hh : nul ≠ hash := by decide
  induction h with
  | nil => exact List.not_mem_nil
  | empty _ ih => exact fun hm => (List.mem_cons.mp hm).elim hl ih
  | comment hw _ ih =>
    have hw' := nul_notMem_of_all (by decide) hw
    simp [hl, hh, hw', ih]
  | lastComment hw =>
    have hw' := nul_notMem_of_all (by decide) hw
    simp [hh, hw']
  | triple x g h _ ih =>
    have hx := x.nul_notMem g h
    simp [hl, hx, ih]

/-- The text is made of the pieces of its entries, with nothing behind them. -/
theorem Rendered.pieces (h : Rendered xs r) (o : ℕ) : ∃ t t' es u, r = t ++ u ∧
    Pieces o t t' es ∧ Tail u .clean ∧
      es.map ConfigEntry.strings = xs.map fun x => (x.sectionName, x.property, x.value) := by
  induction h generalizing o with
  | nil => exact ⟨[], [], [], [], rfl, .nil o, .nil, rfl⟩
  | empty _ ih =>
    obtain ⟨t, t', es, u, rfl, hp, ht, hs⟩ := ih (o + 1)
    exact ⟨_, _, _, u, rfl, .cons (.empty o) hp, ht, hs⟩
  | @comment xs w r hw _ ih =>
    obtain ⟨t, t', es, u, rfl, hp, ht, hs⟩ := ih (o + (hash :: (w ++ [newline])).length)
    exact ⟨_, _, _, u, by simp, .cons (.comment o hw) hp, ht, hs⟩
  | @lastComment w hw => exact ⟨[], [], [], hash :: w, rfl, .nil o, .comment hw, rfl⟩
  | triple x g h _ ih =>
    obtain ⟨hst, t₁, e, he, hes⟩ := x.entryText g h o
    obtain ⟨t, t', es, u, rfl, hp, ht, hs⟩ := ih (o + (x.line g h ++ [newline]).length)
    refine ⟨_, _, _, u, by simp, .cons (.entry hst he) hp, ht, ?_⟩
    rw [List.map_cons, ← hs, ← hes]
    rfl

/-- The first entries of a written text are in the index, in order and with their strings. The
other slots are empty. -/
theorem config_parse_rendered (xs : List Triple) (r : List Byte) (h : Rendered xs r) :
    ∃ k, (∀ fuel, r.length + 2 ≤ fuel → configParse fuel (r ++ [nul]) = some k) ∧
      (∀ j x, j < configIndexSize → xs[j]? = some x → k.sectionString j = some x.sectionName ∧
        k.propertyString j = some x.property ∧ k.valueString j = some x.value) ∧
      ∀ j, xs.length ≤ j → j < configIndexSize → k.configIndex j = ⟨none, none, none⟩ := by
  obtain ⟨k, hfuel, hk⟩ := configParse_exists h.nul_notMem
  obtain ⟨t, t', es, u, hr, hp, ht, hs⟩ := h.pieces 0
  have hparsed := hk t t' es u _ hr hp ht
  have hlen : es.length = xs.length := by
    have hone := congrArg List.length hs
    rwa [List.length_map, List.length_map] at hone
  refine ⟨k, hfuel, fun j x hj hx => ?_, fun j hle hj => ?_⟩
  · obtain ⟨hlt, rfl⟩ := List.getElem?_eq_some_iff.mp hx
    rw [← hlen] at hlt
    have hone := congrArg (fun l => l[j]?) hs
    have hes : (es[j]).strings = (xs[j].sectionName, xs[j].property, xs[j].value) := by
      simpa [hlt, hlen ▸ hlt] using hone
    obtain ⟨hsec, hpair⟩ := Prod.mk.inj hes
    obtain ⟨hprop, hval⟩ := Prod.mk.inj hpair
    rw [← hsec, ← hprop, ← hval]
    exact hparsed.strings hj hlt
  · rcases Nat.lt_or_eq_of_le hle with hlt | rfl
    · exact hparsed.later j (hlen ▸ hlt) hj
    · rw [← hlen] at hj ⊢
      exact hparsed.slot hj

/-- A comment and the line `loader image  1F`. -/
theorem config_parse_rendered_loader : ∃ k, (∀ fuel, 28 ≤ fuel →
      configParse fuel (bytes "# loader\nloader image  1F\n" ++ [nul]) = some k) ∧
    k.sectionString 0 = some (bytes "loader") ∧ k.propertyString 0 = some (bytes "image") ∧
    k.valueString 0 = some (bytes "1F") ∧ k.configIndex 1 = ⟨none, none, none⟩ := by
  let x : Triple := ⟨bytes "loader", bytes "image", bytes "1F", by decide, by decide, by decide,
    by decide, by decide, by decide, by decide, by decide⟩
  have hr : Rendered [x] (bytes "# loader\nloader image  1F\n") :=
    .comment (w := bytes " loader") (by decide)
      (.triple x ⟨bytes " ", by decide, by decide⟩ ⟨bytes "  ", by decide, by decide⟩ .nil)
  obtain ⟨k, hk, hget, hlater⟩ := config_parse_rendered [x] _ hr
  obtain ⟨h₁, h₂, h₃⟩ := hget 0 x (by decide) rfl
  exact ⟨k, hk, h₁, h₂, h₃, hlater 1 le_rfl (by decide)⟩

end Pinion64
