import VersionConstraints.Proofs.Rendering

namespace VersionConstraints

-- A strict core is three numbers.
theorem Scheme.admits_strictly_iff {core : List Text} :
    semantic.admits true core ↔
      ∃ major minor patch : Nat, core = [major, minor, patch].map Decimal.digits := by
  simp only [admits, if_true, Bool.and_eq_true, beq_iff_eq, List.all_eq_true]
  constructor
  case mp =>
    intro ⟨hl, hn⟩
    match core, hl with
    | [a, b, c], _ =>
      refine ⟨Decimal.value a, Decimal.value b, Decimal.value c, ?_⟩
      rw [List.map_cons, List.map_cons, List.map_singleton, Decimal.digits_value (hn a (by simp)),
        Decimal.digits_value (hn b (by simp)), Decimal.digits_value (hn c (by simp))]
  case mpr =>
    rintro ⟨major, minor, patch, rfl⟩
    exact ⟨rfl, List.forall_mem_map.mpr fun n _ => Decimal.isNumeral_digits n⟩

namespace Version

variable {t : Text} {major minor patch : Segment} {v w : Version .semantic}

theorem text_inj :
    v.text = w.text ↔
      v.major = w.major ∧ v.minor = w.minor ∧ v.patch = w.patch ∧
        v.prerelease = w.prerelease ∧ v.metadata = w.metadata := by
  rw [text_eq_iff, Precedence.ext_iff]
  simp only [and_assoc]

theorem head_text (v : Version .semantic) : ∀ c ∈ v.text.head?, c.isDigit := by
  intro c hc
  have ht : v.text.head? = (Decimal.digits v.major.toNat).head? := by
    simp only [text, Parts.text, parts, Scheme.core, List.map_cons, Text.dotted,
      List.intercalate_cons_cons, List.append_assoc]
    exact List.head?_append_of_ne_nil _ Nat.toDigits_ne_nil
  rw [ht] at hc
  exact Decimal.isDigit_of_mem_digits <| List.mem_of_mem_head? hc

-- A text starts with a digit, so that no tag is taken from it.
theorem untagged_text (v : Version .semantic) : Scheme.semantic.untagged v.text = v.text := by
  unfold Scheme.untagged
  split
  case h_1 h => exact absurd (v.head_text 'v' (by simp [h])) (by decide)
  case h_2 => rfl

theorem untagged_eq_text :
    Scheme.semantic.untagged t = v.text ↔ t = v.text ∨ t = 'v' :: v.text := by
  constructor
  case mp =>
    unfold Scheme.untagged
    split
    case h_1 => exact fun h => .inr (h ▸ rfl)
    case h_2 => exact .inl
  case mpr =>
    intro h
    cases h
    case inl h => rw [h, v.untagged_text]
    case inr h => rw [h]; rfl

theorem hasShape_parts (v : Version .semantic) : hasShape true .semantic v.parts := by
  rw [hasShape_parts_eq]
  simp [Scheme.admits, parts, Scheme.core, Decimal.isNumeral_digits]

-- A strict core is written the one way in which its numbers are.
theorem core_eq_of_admits {core : List Text} (ha : Scheme.semantic.admits true core)
    (hM : segment core[0]? = .ok major) (hm : segment core[1]? = .ok minor)
    (hp : segment core[2]? = .ok patch) : core = Scheme.semantic.core major minor patch := by
  have ⟨M, m, p, hc⟩ := Scheme.admits_strictly_iff.mp ha
  have toNat_eq {n : Nat} {segment : Segment}
      (h : Segment.ofDigits (Decimal.digits n) = .ok segment) : n = segment.toNat :=
    (Decimal.value_digits n).symm.trans <| Segment.ofDigits_eq_ok.mp h
  subst hc
  rw [toNat_eq hM, toNat_eq hm, toNat_eq hp]
  rfl

theorem parseStrict_eq_ok :
    parseStrict .semantic t = .ok v ↔ (t = v.text ∨ t = 'v' :: v.text) ∧ v.spelling = t := by
  rw [parseStrict, read_eq_ok, ← untagged_eq_text]
  constructor
  case mp =>
    rintro ⟨hs, hM, hm, hp, hr, hl, ht⟩
    simp only [hasShape, Bool.and_eq_true] at hs
    have hc := core_eq_of_admits hs.1.1 hM hm hp
    have hv : Parts.ofText (Scheme.semantic.untagged t) = v.parts := Parts.ext hc hr.symm hl.symm
    exact ⟨by rw [text, ← hv, Parts.text_ofText], ht⟩
  case mpr =>
    rintro ⟨h, ht⟩
    simp only [h, ofText_text]
    exact ⟨v.hasShape_parts, Segment.ofDigits_digits _, Segment.ofDigits_digits _,
      Segment.ofDigits_digits _, rfl, rfl, ht⟩

theorem admits_loosely {s : Scheme} {strict : Bool} {core : List Text} (h : s.admits strict core) :
    s.admits false core := by
  cases s
  case calendar => cases core <;> exact h
  case semantic =>
    cases strict
    case false => exact h
    case true =>
      simp only [Scheme.admits, if_true, Bool.and_eq_true, beq_iff_eq, List.all_eq_true] at h
      simp only [Scheme.admits, Bool.false_eq_true, if_false, Bool.and_eq_true, decide_eq_true_eq,
        List.all_eq_true]
      exact ⟨Nat.le_of_eq h.1, fun n hn => (Bool.and_eq_true_iff.mp (h.2 n hn)).1⟩

section Read

variable {s : Scheme} {strict : Bool}

-- The shape of the core is all in which the two ways to read differ.
theorem read_of_admits (h : s.admits strict (Parts.ofText (s.untagged t)).core) :
    read strict s t = read false s t := by
  have hs : hasShape strict s (Parts.ofText (s.untagged t)) =
      hasShape false s (Parts.ofText (s.untagged t)) := by
    rw [hasShape, h, hasShape, admits_loosely h]
  rw [read, hs, read]

theorem read_of_not_admits (h : ¬ s.admits strict (Parts.ofText (s.untagged t)).core) :
    read strict s t = .error (s.invalid t) := by
  rw [read]
  apply if_neg
  simp only [hasShape, Bool.and_eq_true]
  exact fun hs => h hs.1.1

-- What is read strictly is read loosely alike.
theorem read_loosely {v : Version s} (h : read strict s t = .ok v) : read false s t = .ok v := by
  by_cases ha : s.admits strict (Parts.ofText (s.untagged t)).core
  case pos => rw [← read_of_admits ha, h]
  case neg => exact absurd (h.symm.trans <| read_of_not_admits ha) nofun

end Read

def fields (v : Version .semantic) : Segment × Segment × Segment × Text × Text :=
  (v.major, v.minor, v.patch, v.prerelease.text, v.metadata.text)

-- A text that is written for the version built from the given fields, with or without a tag.
def Spells (t : Text) (major minor patch : Segment) (prerelease metadata : Text) : Prop :=
  ∃ v : Version .semantic, new .semantic major minor patch prerelease metadata = .ok v ∧
    (t = v.text ∨ t = 'v' :: v.text)

variable {prerelease metadata : Text}

theorem fields_of_new (h : new .semantic major minor patch prerelease metadata = .ok v) :
    v.fields = (major, minor, patch, prerelease, metadata) := by
  have ⟨hM, hm, hp, hr, hl, _⟩ := new_eq_ok.mp h
  simp only [fields, hM, hm, hp, hr, hl]

theorem fields_eq_of_text_eq (h : v.text = w.text) : v.fields = w.fields := by
  have ⟨hM, hm, hp, hr, hl⟩ := text_inj.mp h
  simp only [fields, hM, hm, hp, hr, hl]

theorem spells_of_parseStrict (h : parseStrict .semantic t = .ok v) :
    Spells t v.major v.minor v.patch v.prerelease.text v.metadata.text := by
  have ⟨ht, _⟩ := parseStrict_eq_ok.mp h
  exact ⟨v.canonical, new_eq_ok.mpr ⟨rfl, rfl, rfl, rfl, rfl, rfl⟩, ht⟩

theorem parseStrict_of_spells (h : Spells t major minor patch prerelease metadata) :
    ∃ v, parseStrict .semantic t = .ok v := by
  have ⟨v, _, ht⟩ := h
  exact ⟨{ v with spelling := t }, parseStrict_eq_ok.mpr ⟨ht, rfl⟩⟩

theorem fields_of_spells (hv : parseStrict .semantic t = .ok v)
    (h : Spells t major minor patch prerelease metadata) :
    v.fields = (major, minor, patch, prerelease, metadata) := by
  have ⟨w, hw, ht⟩ := h
  have hv := untagged_eq_text.mpr (parseStrict_eq_ok.mp hv).1
  rw [← fields_of_new hw]
  exact fields_eq_of_text_eq <| hv.symm.trans (untagged_eq_text.mpr ht)

-- Strict reading is the inverse of writing:
-- 1. it accepts what is written for some fields, and nothing else
-- 2. it finds these fields again and keeps the text
-- 3. no two lists of fields are written alike
theorem parseStrict_inverts_text :
    (∀ t, (∃ v, parseStrict .semantic t = .ok v) ↔
      ∃ major minor patch prerelease metadata, Spells t major minor patch prerelease metadata) ∧
    (∀ t v major minor patch prerelease metadata,
      parseStrict .semantic t = .ok v → Spells t major minor patch prerelease metadata →
        v.fields = (major, minor, patch, prerelease, metadata) ∧ v.spelling = t) ∧
    (∀ major minor patch prerelease metadata major' minor' patch' prerelease' metadata' v w,
      new .semantic major minor patch prerelease metadata = .ok v →
      new .semantic major' minor' patch' prerelease' metadata' = .ok w → v.text = w.text →
        (major, minor, patch, prerelease, metadata) =
          (major', minor', patch', prerelease', metadata')) := by
  refine ⟨?accepts, ?finds, ?injective⟩
  case accepts =>
    intro t
    constructor
    case mp => exact fun ⟨_, h⟩ => ⟨_, _, _, _, _, spells_of_parseStrict h⟩
    case mpr => exact fun ⟨_, _, _, _, _, h⟩ => parseStrict_of_spells h
  case finds =>
    intro t v _ _ _ _ _ hv h
    exact ⟨fields_of_spells hv h, (parseStrict_eq_ok.mp hv).2⟩
  case injective =>
    intro _ _ _ _ _ _ _ _ _ _ v w hv hw h
    rw [← fields_of_new hv, ← fields_of_new hw, fields_eq_of_text_eq h]

-- Hyphens inside a prerelease and inside metadata, and the largest number that can be read.
theorem parseStrict_inverts_text_tagged :
    ∃ v, parseStrict .semantic "v1.0.18446744073709551615-x-0.1+0-0".toList = .ok v ∧
      v.fields = (1, 0, Segment.largest, "x-0.1".toList, "0-0".toList) := by
  have h : Spells "v1.0.18446744073709551615-x-0.1+0-0".toList 1 0 Segment.largest "x-0.1".toList
      "0-0".toList := ⟨_, rfl, .inr (by decide)⟩
  have ⟨v, hv⟩ := (parseStrict_inverts_text.1 _).mpr ⟨_, _, _, _, _, h⟩
  exact ⟨v, hv, (parseStrict_inverts_text.2.1 _ _ _ _ _ _ _ hv h).1⟩

-- What the numbers are read from: all up to the first hyphen or plus sign, without the tag.
def coreText (t : Text) : Text :=
  (Scheme.semantic.untagged t).takeWhile Parts.inCore

-- Three numbers, with dots between them and without leading zeros.
def Full (core : Text) : Prop :=
  ∃ major minor patch : Nat, core = Text.dotted ([major, minor, patch].map Decimal.digits)

theorem full_iff {core : Text} : Full core ↔ Scheme.semantic.admits true (core.splitOn '.') := by
  rw [Scheme.admits_strictly_iff]
  constructor
  case mp =>
    rintro ⟨major, minor, patch, rfl⟩
    refine ⟨major, minor, patch, List.splitOn_intercalate _ ?_ (List.cons_ne_nil _ _)⟩
    exact List.forall_mem_map.mpr fun n _ hd =>
      absurd (Decimal.isDigit_of_mem_digits hd) (by decide)
  case mpr =>
    rintro ⟨major, minor, patch, hc⟩
    exact ⟨major, minor, patch, by rw [← hc, Text.dotted, List.intercalate_splitOn]⟩

-- Strict and loose reading differ by a test of the core:
-- 1. where it is full, the result is the same, be it a version or an error
-- 2. any other text is strictly invalid as a whole
theorem parseStrict_by_core (t : Text) :
    (Full (coreText t) → parseStrict .semantic t = parse .semantic t) ∧
    (¬ Full (coreText t) → parseStrict .semantic t = .error (.invalidSemantic t)) :=
  ⟨fun h => read_of_admits <| full_iff.mp h, fun h => read_of_not_admits <| mt full_iff.mpr h⟩

-- A number that is too large in front of a prerelease that starts with zero,
-- and one that itself does.
theorem parseStrict_by_core_overflow :
    let tooLarge := "v1.0.18446744073709551616-01".toList
    (Full (coreText tooLarge) ∧ parseStrict .semantic tooLarge = parse .semantic tooLarge) ∧
      ¬ Full (coreText "1.02.3".toList) ∧
        parseStrict .semantic "1.02.3".toList = .error (.invalidSemantic "1.02.3".toList) := by
  intro tooLarge
  have full : Full (coreText tooLarge) := ⟨1, 0, 18446744073709551616, by decide⟩
  have padded : ¬ Full (coreText "1.02.3".toList) := mt full_iff.mp (by decide)
  exact ⟨⟨full, (parseStrict_by_core _).1 full⟩, padded, (parseStrict_by_core _).2 padded⟩

end Version
end VersionConstraints
