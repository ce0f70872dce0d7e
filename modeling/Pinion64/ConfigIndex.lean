import Pinion64.ConfigParse

/-! The index that config_parse leaves: which slots config_read visits, and what they hold. -/
namespace Pinion64
open Config

variable {k : Config} {es : List ConfigEntry} {rest : Rest} {j : ℕ}

/-- A slot of the index holds the entry. -/
theorem Parsed.get (h : Parsed k es rest) (hj : j < configIndexSize) (hlt : j < es.length) :
    k.configIndex j = (es[j]).item ∧ (es[j]).In k.text :=
  h.items j _ hj (List.getElem?_eq_getElem hlt)

theorem Parsed.visible (h : Parsed k es rest) (hj : j < configIndexSize) (hle : j ≤ es.length)
    (hs : (k.configIndex j).sectionAt ≠ none) : k.Visible j := by
  refine ⟨hj, fun i hi => ?_⟩
  rcases Nat.lt_or_eq_of_le hi with hlt | rfl
  · rw [(h.get (hlt.trans hj) (hlt.trans_le hle)).1]
    exact Option.some_ne_none _
  · exact hs

/-- config_read visits the entries, and the next slot if the text leaves a section there. -/
theorem Parsed.visible_cases (h : Parsed k es rest) (hv : k.Visible j) :
    j < es.length ∨ j = es.length ∧ rest = .dangling := by
  by_cases hlt : j < es.length
  · exact Or.inl hlt
  · right
    have hlen : es.length < configIndexSize := by
      have hj := hv.1
      omega
    have hsec := hv.2 es.length (Nat.not_lt.mp hlt)
    have hslot := h.slot hlen
    cases rest with
    | clean => exact absurd (congrArg ConfigItem.sectionAt hslot) hsec
    | cut => exact absurd hslot hsec
    | dangling =>
      refine ⟨?_, rfl⟩
      by_contra hne
      refine hv.2 j le_rfl ?_
      rw [h.later j (by omega) hv.1]

theorem ConfigEntry.In.strings {e : ConfigEntry} (h : e.In k.text) (hi : k.configIndex j = e.item) :
    k.sectionString j = some e.sectionName ∧ k.propertyString j = some e.property ∧
      k.valueString j = some e.value := by
  unfold sectionString propertyString valueString
  rw [hi]
  exact ⟨h.sectionName, h.property, h.value⟩

theorem Parsed.strings (h : Parsed k es rest) (hj : j < configIndexSize) (hlt : j < es.length) :
    k.sectionString j = some (es[j]).sectionName ∧ k.propertyString j = some (es[j]).property ∧
      k.valueString j = some (es[j]).value := by
  obtain ⟨hi, he⟩ := h.get hj hlt
  exact he.strings hi

theorem Parsed.wellFormed (h : Parsed k es rest) :
    k.WellFormed ↔ ¬ (es.length < configIndexSize ∧ rest = .dangling) := by
  constructor
  · rintro hw ⟨hlen, rfl⟩
    obtain ⟨hsec, hval⟩ := h.slot hlen
    have hv := (hw es.length (h.visible hlen le_rfl hsec)).2.2
    rw [valueString, hval] at hv
    exact absurd hv Bool.false_ne_true
  · intro hno j hv
    rcases h.visible_cases hv with hlt | ⟨rfl, hr⟩
    · obtain ⟨h₁, h₂, h₃⟩ := h.strings hv.1 hlt
      rw [h₁, h₂, h₃]
      exact ⟨rfl, rfl, rfl⟩
    · exact absurd ⟨hv.1, hr⟩ hno

theorem configReadAsPtr_isSome {s p : List Byte} (hw : k.WellFormed) (hs : nul ∉ s) (hp : nul ∉ p)
    (sentinel : BitVec 64) : (configReadAsPtr k s p sentinel).isSome := by
  obtain ⟨r, hr, ⟨j, hj, rfl⟩ | ⟨-, rfl⟩⟩ := configRead_spec hw hs hp
  · obtain ⟨-, -, hval⟩ := hw j hj.1
    obtain ⟨v, hv⟩ := Option.isSome_iff_exists.mp hval
    obtain ⟨value, hvalue, hv⟩ := Option.bind_eq_some_iff.mp hv
    rw [hvalue] at hr
    rw [configReadAsPtr_eq hr hv]
    rfl
  · unfold configReadAsPtr
    rw [hr]
    rfl

/-- Nothing that the readers do with the index fails. -/
def Config.Readable (k : Config) : Prop :=
  k.WellFormed ∧ ∀ s p, nul ∉ s → nul ∉ p → (configRead k s p).isSome ∧
    ∀ sentinel, (configReadAsPtr k s p sentinel).isSome

theorem Config.WellFormed.readable (hw : k.WellFormed) : k.Readable := by
  refine ⟨hw, fun s p hs hp => ⟨?_, configReadAsPtr_isSome hw hs hp⟩⟩
  obtain ⟨r, hr, -⟩ := configRead_spec hw hs hp
  rw [hr]
  rfl

/-- With a slot free, the text ends behind the section or the property of an entry and the
character that ended it. -/
def Unfinished (r : List Byte) : Prop :=
  ∃ t t' es u, r = t ++ u ∧ Pieces 0 t t' es ∧ es.length < configIndexSize ∧ Tail u .dangling

/-- What config_parse makes of a text does not depend on how the text is taken apart. -/
theorem configParse_exists {r : List Byte} (hn : nul ∉ r) :
    ∃ k, (∀ fuel, r.length + 2 ≤ fuel → configParse fuel (r ++ [nul]) = some k) ∧
      ∀ t t' es u rest, r = t ++ u → Pieces 0 t t' es → Tail u rest → Parsed k es rest := by
  obtain ⟨t, t', es, u, rest, rfl, hp, ht⟩ := exists_pieces hn 0
  obtain ⟨k, hk, hfuel⟩ := configParse_spec hp ht hn
  refine ⟨k, hfuel, fun t₁ t₁' es₁ u₁ rest₁ hr hp₁ ht₁ => ?_⟩
  rw [hr] at hn hfuel
  obtain ⟨k₁, hk₁, hfuel₁⟩ := configParse_spec hp₁ ht₁ hn
  obtain rfl : k = k₁ := Option.some.inj ((hfuel _ le_rfl).symm.trans (hfuel₁ _ le_rfl))
  exact hk₁

/-- A text that has been taken apart otherwise is not unfinished. -/
theorem not_unfinished {t t' u : List Byte} (hp : Pieces 0 t t' es) (ht : Tail u rest)
    (hn : nul ∉ t ++ u) (hr : rest ≠ .dangling) : ¬ Unfinished (t ++ u) := by
  obtain ⟨k, -, hk⟩ := configParse_exists hn
  rintro ⟨s, s', fs, v, hv, hs, hlen, hd⟩
  refine (hk s s' fs v _ hv hs hd).wellFormed.mp ?_ ⟨hlen, rfl⟩
  exact (hk t t' es u rest rfl hp ht).wellFormed.mpr fun h => hr h.2

/-- The index is well formed and can be read if and only if the text does not end in the middle of
an entry, behind its section or its property. -/
theorem config_index_wellFormed (r : List Byte) (hn : nul ∉ r) :
    ∃ k, (∀ fuel, r.length + 2 ≤ fuel → configParse fuel (r ++ [nul]) = some k) ∧
      (k.Readable ↔ ¬ Unfinished r) := by
  obtain ⟨k, hfuel, hk⟩ := configParse_exists hn
  refine ⟨k, hfuel, ?_⟩
  constructor
  · rintro ⟨hw, -⟩ ⟨t, t', es, u, hr, hp, hlen, ht⟩
    exact (hk t t' es u _ hr hp ht).wellFormed.mp hw ⟨hlen, rfl⟩
  · intro hno
    obtain ⟨t, t', es, u, rest, hr, hp, ht⟩ := exists_pieces hn 0
    refine ((hk t t' es u rest hr hp ht).wellFormed.mpr ?_).readable
    rintro ⟨hlen, rfl⟩
    exact hno ⟨t, t', es, u, hr, hp, hlen, ht⟩

/-- The line `a b c`. -/
theorem line_abc : Pieces 0 (bytes "a b c\n") ([0x61, nul] ++ ([0x62, nul] ++ [0x63, nul]))
    [⟨0, bytes "a", 2, bytes "b", 4, bytes "c"⟩] := by
  have h₁ : Token fieldChar [] (bytes "a") space := by constructor <;> decide
  have h₂ : Token fieldChar [] (bytes "b") space := by constructor <;> decide
  have h₃ : Token valueChar [] (bytes "c") newline := by constructor <;> decide
  exact .cons (.entry (by unfold Starts; decide) (.mk 0 h₁ h₂ h₃)) (.nil _)

theorem config_index_wellFormed_abc : ∃ k, (∀ fuel, 8 ≤ fuel →
    configParse fuel (bytes "a b c\n" ++ [nul]) = some k) ∧ k.Readable := by
  obtain ⟨k, hk, hiff⟩ := config_index_wellFormed (bytes "a b c\n") (by decide)
  refine ⟨k, hk, hiff.mpr ?_⟩
  exact not_unfinished (u := []) line_abc .nil (by decide) fun h => nomatch h

/-- A text that ends behind a section leaves a slot with the section alone. -/
theorem config_index_dangling : ¬ ∀ r : List Byte, nul ∉ r →
    ∃ k, (∀ fuel, r.length + 2 ≤ fuel → configParse fuel (r ++ [nul]) = some k) ∧ k.Readable := by
  intro h
  obtain ⟨k, hfuel, hw, -⟩ := h (bytes "a ") (by decide)
  have hslot : (configParse 4 (bytes "a " ++ [nul])).map (fun k => k.configIndex 0) =
      some ⟨some 0, none, none⟩ := by decide +kernel
  rw [hfuel 4 (by decide)] at hslot
  have hitem : k.configIndex 0 = ⟨some 0, none, none⟩ := Option.some.inj hslot
  have hv : k.Visible 0 := by
    refine ⟨by decide, fun i hi => ?_⟩
    rw [Nat.le_zero.mp hi, hitem]
    exact Option.some_ne_none _
  have hprop := (hw 0 hv).2.1
  rw [propertyString, hitem] at hprop
  exact Bool.false_ne_true hprop

end Pinion64
