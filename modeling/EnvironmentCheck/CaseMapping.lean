import Mathlib.Data.List.Infix

namespace EnvironmentCheck

structure Locale where
  language : String

/-- The locales whose two letters i differ by their dot. -/
def Locale.Turkic (locale : Locale) : Prop :=
  locale.language = "tr" ∨ locale.language = "az"

instance (locale : Locale) : Decidable locale.Turkic :=
  inferInstanceAs (Decidable (_ ∨ _))

-- `fold` is the mapping of the letters that every locale treats alike

/-- The mapping that is assumed of Java: its rule for an I before U+0307 is left out. -/
def lowercaseChar (fold : Char → Char) (locale : Locale) (c : Char) : List Char :=
  if c = 'I' then [if locale.Turkic then 'ı' else 'i']
  else if c = 'İ' then if locale.Turkic then ['i'] else ['i', '\u0307']
  else [fold c]

/-- `String.lowercase(locale)`, and Java's `toLowerCase`. -/
def lowercase (fold : Char → Char) (locale : Locale) (s : List Char) : List Char :=
  s.flatMap (lowercaseChar fold locale)

/-- A letter without its case, which takes every i for the same one. -/
def caseless (fold : Char → Char) (c : Char) : Char :=
  if c = 'I' ∨ c = 'İ' then 'i' else fold c

/-- Texts that are compared with lower case: they have no dotless i and no dot of its own. -/
def Plain (literal : List Char) : Prop :=
  literal ≠ [] ∧ 'ı' ∉ literal ∧ '\u0307' ∉ literal

instance (literal : List Char) : Decidable (Plain literal) :=
  inferInstanceAs (Decidable (_ ∧ _ ∧ _))

variable {fold : Char → Char} {locale : Locale} {literal s : List Char}

/-! ### Turkish and Azeri -/

theorem lowercase_of_turkic (h : locale.Turkic) (s : List Char) : lowercase fold locale s =
    s.map fun c => if c = 'I' then 'ı' else caseless fold c := by
  rw [lowercase, List.map_eq_flatMap]
  congr 1
  funext c
  by_cases hI : c = 'I'
  · simp [lowercaseChar, hI, h]
  · by_cases hD : c = 'İ'
    · simp [lowercaseChar, caseless, hD, h]
    · simp [lowercaseChar, caseless, hI, hD]

theorem map_turkic_iff (hl : Plain literal) (piece : List Char) :
    (piece.map fun c => if c = 'I' then 'ı' else caseless fold c) = literal ↔
      piece.map (caseless fold) = literal ∧ 'I' ∉ piece := by
  constructor
  · intro h
    have hI : 'I' ∉ piece := by
      intro hmem
      apply hl.2.1
      rw [← h]
      exact List.mem_map.mpr ⟨'I', hmem, rfl⟩
    refine ⟨?_, hI⟩
    rw [← h]
    apply List.map_congr_left
    intro c hc
    rw [if_neg (ne_of_mem_of_not_mem hc hI)]
  · rintro ⟨h, hI⟩
    rw [← h]
    apply List.map_congr_left
    intro c hc
    rw [if_neg (ne_of_mem_of_not_mem hc hI)]

theorem infix_turkic_iff (hl : Plain literal) (h : locale.Turkic) :
    literal <:+: lowercase fold locale s ↔
      ∃ piece, piece <:+: s ∧ piece.map (caseless fold) = literal ∧ 'I' ∉ piece := by
  rw [lowercase_of_turkic h, List.infix_map_iff]
  apply exists_congr
  intro piece
  rw [eq_comm, map_turkic_iff hl]

theorem eq_turkic_iff (hl : Plain literal) (h : locale.Turkic) :
    lowercase fold locale s = literal ↔ s.map (caseless fold) = literal ∧ 'I' ∉ s := by
  rw [lowercase_of_turkic h, map_turkic_iff hl]

/-! ### The other locales -/

theorem lowercaseChar_dotted (h : ¬ locale.Turkic) :
    lowercaseChar fold locale 'İ' = ['i', '\u0307'] := by
  simp [lowercaseChar, h]

theorem lowercaseChar_of_ne (h : ¬ locale.Turkic) {c : Char} (hc : c ≠ 'İ') :
    lowercaseChar fold locale c = [caseless fold c] := by
  by_cases hI : c = 'I'
  · simp [lowercaseChar, caseless, hI, h]
  · simp [lowercaseChar, caseless, hI, hc]

theorem lowercase_cons (c : Char) (s : List Char) :
    lowercase fold locale (c :: s) = lowercaseChar fold locale c ++ lowercase fold locale s :=
  List.flatMap_cons

/-- A text that is found within the letters of a dotted I ends with its i. -/
theorem prefix_dotted_iff {rest : List Char} (hdot : '\u0307' ∉ literal) :
    literal <+: 'i' :: '\u0307' :: rest ↔ literal = [] ∨ literal = ['i'] := by
  rw [List.prefix_cons_iff]
  apply or_congr_right
  constructor
  · rintro ⟨t, rfl, ht⟩
    obtain rfl | ⟨u, rfl, _⟩ := List.prefix_cons_iff.mp ht
    · rfl
    · simp at hdot
  · rintro rfl
    exact ⟨[], rfl, List.nil_prefix⟩

theorem not_mem_dropLast_cons {c : Char} (hc : c ≠ 'İ') (piece : List Char) :
    'İ' ∉ (c :: piece).dropLast ↔ 'İ' ∉ piece.dropLast := by
  cases piece with
  | nil => simp
  | cons d ds => simp [hc.symm]

theorem not_mem_dropLast_dotted (piece : List Char) :
    'İ' ∉ ('İ' :: piece).dropLast ↔ piece = [] := by
  cases piece with
  | nil => simp
  | cons d ds => simp

theorem prefix_plain_iff (hdot : '\u0307' ∉ literal) (h : ¬ locale.Turkic) :
    literal <+: lowercase fold locale s ↔
      ∃ piece, piece <+: s ∧ piece.map (caseless fold) = literal ∧ 'İ' ∉ piece.dropLast := by
  induction s generalizing literal with
  | nil =>
    rw [lowercase, List.flatMap_nil, List.prefix_nil]
    constructor
    · rintro rfl
      exact ⟨[], List.prefix_rfl, rfl, List.not_mem_nil⟩
    · rintro ⟨piece, hpiece, rfl, _⟩
      rw [List.prefix_nil.mp hpiece]
      rfl
  | cons c s ih =>
    rw [lowercase_cons]
    by_cases hc : c = 'İ'
    · subst hc
      rw [lowercaseChar_dotted h, List.cons_append, List.singleton_append, prefix_dotted_iff hdot]
      constructor
      · rintro (rfl | rfl)
        · exact ⟨[], List.nil_prefix, rfl, List.not_mem_nil⟩
        · exact ⟨['İ'], by simp, rfl, List.not_mem_nil⟩
      · rintro ⟨piece, hpiece, rfl, hlast⟩
        obtain rfl | ⟨t, rfl, _⟩ := List.prefix_cons_iff.mp hpiece
        · exact Or.inl rfl
        · rw [(not_mem_dropLast_dotted t).mp hlast]
          exact Or.inr rfl
    · rw [lowercaseChar_of_ne h hc, List.singleton_append, List.prefix_cons_iff]
      constructor
      · rintro (rfl | ⟨t, rfl, ht⟩)
        · exact ⟨[], List.nil_prefix, rfl, List.not_mem_nil⟩
        · obtain ⟨piece, hpiece, rfl, hlast⟩ :=
            (ih (fun hmem => hdot (List.mem_cons_of_mem _ hmem))).mp ht
          exact ⟨c :: piece, (List.prefix_cons_inj c).mpr hpiece, rfl,
            (not_mem_dropLast_cons hc piece).mpr hlast⟩
      · rintro ⟨piece, hpiece, rfl, hlast⟩
        obtain rfl | ⟨t, rfl, ht⟩ := List.prefix_cons_iff.mp hpiece
        · exact Or.inl rfl
        · refine Or.inr ⟨t.map (caseless fold), rfl, ?_⟩
          apply (ih (fun hmem => hdot (List.mem_cons_of_mem _ hmem))).mpr
          exact ⟨t, ht, rfl, (not_mem_dropLast_cons hc t).mp hlast⟩

theorem infix_plain_iff (hl : Plain literal) (h : ¬ locale.Turkic) :
    literal <:+: lowercase fold locale s ↔
      ∃ piece, piece <:+: s ∧ piece.map (caseless fold) = literal ∧ 'İ' ∉ piece.dropLast := by
  obtain ⟨hne, _, hdot⟩ := hl
  have hfront (s : List Char) := @prefix_plain_iff fold locale literal s hdot h
  induction s with
  | nil =>
    rw [lowercase, List.flatMap_nil, List.infix_nil]
    refine iff_of_false hne ?_
    rintro ⟨piece, hpiece, hmap, _⟩
    rw [List.infix_nil.mp hpiece] at hmap
    exact hne hmap.symm
  | cons c s ih =>
    have hstep : literal <:+: lowercase fold locale (c :: s) ↔
        literal <+: lowercase fold locale (c :: s) ∨ literal <:+: lowercase fold locale s := by
      rw [lowercase_cons]
      by_cases hc : c = 'İ'
      · subst hc
        rw [lowercaseChar_dotted h, List.cons_append, List.singleton_append, List.infix_cons_iff,
          List.infix_cons_iff]
        have hnot : ¬ literal <+: '\u0307' :: lowercase fold locale s := by
          intro hp
          obtain rfl | ⟨t, rfl, _⟩ := List.prefix_cons_iff.mp hp
          · exact hne rfl
          · exact hdot List.mem_cons_self
        rw [or_iff_right hnot]
      · rw [lowercaseChar_of_ne h hc, List.singleton_append, List.infix_cons_iff]
    rw [hstep, or_congr (hfront (c :: s)) ih]
    simp only [List.infix_cons_iff, or_and_right, exists_or]

theorem eq_plain_iff (hl : Plain literal) (h : ¬ locale.Turkic) :
    lowercase fold locale s = literal ↔ s.map (caseless fold) = literal ∧ 'İ' ∉ s := by
  obtain ⟨_, _, hdot⟩ := hl
  by_cases hD : 'İ' ∈ s
  · refine iff_of_false ?_ (fun h => h.2 hD)
    rintro rfl
    apply hdot
    rw [lowercase, List.mem_flatMap]
    exact ⟨'İ', hD, by simp [lowercaseChar_dotted h]⟩
  · have hmap : lowercase fold locale s = s.map (caseless fold) := by
      rw [lowercase, List.map_eq_flatMap]
      apply List.flatMap_congr
      intro c hc
      exact lowercaseChar_of_ne h (ne_of_mem_of_not_mem hc hD)
    rw [hmap, and_iff_left hD]

end EnvironmentCheck
