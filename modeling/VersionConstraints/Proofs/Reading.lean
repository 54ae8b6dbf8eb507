import VersionConstraints.Version.Basic
import VersionConstraints.Proofs.Sequence

namespace VersionConstraints

-- What it takes for each reader to succeed, as one equivalence a reader.

namespace Dotted

variable {valid : Text → Bool} {d : Dotted valid} {parts : List Text}

theorem ofParts?_eq_some : ofParts? parts = some d ↔ d.parts = parts := by
  rw [ofParts?]
  split
  case isTrue => rw [Option.some_inj, Dotted.ext_iff, eq_comm]
  case isFalse h =>
    simp only [reduceCtorEq, false_iff]
    intro hd
    exact h (hd ▸ d.valid)

theorem parts_eq_pieces (h : ∀ i, valid i → Identifier.wellFormed i) {t : Text} :
    d.parts = t.pieces ↔ d.text = t := by
  constructor
  case mp =>
    intro hd
    rw [Dotted.text, hd, Text.dotted_pieces]
  case mpr =>
    intro ht
    rw [← ht, d.pieces_text h]

end Dotted

theorem Prerelease.ofParts_eq_ok {p : Prerelease} {parts : List Text} :
    ofParts parts = .ok p ↔ p.parts = parts := by
  rw [ofParts, ← Dotted.ofParts?_eq_some]
  split <;> simp_all

theorem Metadata.ofParts_eq_ok {s : Scheme} {m : Metadata s} {parts : List Text} :
    ofParts parts = .ok m ↔ m.parts = parts := by
  rw [ofParts, ← Dotted.ofParts?_eq_some]
  split <;> simp_all

theorem Segment.ofDigits_eq_ok {digits : Text} {n : Segment} :
    ofDigits digits = .ok n ↔ Decimal.value digits = n.toNat := by
  rw [ofDigits]
  split
  case isTrue h => simp [← UInt64.toNat_inj]
  case isFalse h =>
    have := UInt64.toNat_lt n
    simp only [reduceCtorEq, false_iff]
    intro hn
    exact h (hn ▸ this)

namespace Version

variable {s : Scheme} {strict : Bool} {major minor patch : Segment}
variable {prerelease metadata : List Text}
variable {t : Text} {v : Version s}

theorem canonical_eq_self : canonical v = v ↔ v.spelling = v.text := by
  rw [canonical]
  cases v
  simp [eq_comm]

theorem ofParts_eq_ok :
    ofParts major minor patch prerelease metadata = .ok v ↔
      v.major = major ∧ v.minor = minor ∧ v.patch = patch ∧ v.prerelease.parts = prerelease ∧
        v.metadata.parts = metadata ∧ v.spelling = v.text := by
  simp only [ofParts, bind_eq_ok, pure_eq_ok, Prerelease.ofParts_eq_ok, Metadata.ofParts_eq_ok]
  constructor
  case mp =>
    rintro ⟨p, rfl, m, rfl, rfl⟩
    exact ⟨rfl, rfl, rfl, rfl, rfl, rfl⟩
  case mpr =>
    rintro ⟨rfl, rfl, rfl, rfl, rfl, h⟩
    exact ⟨_, rfl, _, rfl, canonical_eq_self.mpr h⟩

theorem new_eq_ok {v : Version .semantic} {prerelease metadata : Text} :
    new .semantic major minor patch prerelease metadata = .ok v ↔
      v.major = major ∧ v.minor = minor ∧ v.patch = patch ∧ v.prerelease.text = prerelease ∧
        v.metadata.text = metadata ∧ v.spelling = v.text := by
  rw [new, ofParts_eq_ok, if_neg (by decide)]
  rw [Dotted.parts_eq_pieces fun _ => Identifier.wellFormed_of_canonical]
  rw [@Dotted.parts_eq_pieces (Scheme.label .semantic) _ fun _ h => h]

-- A calendar version is built without metadata, whatever is given.
theorem new_calendar_eq_ok {v : Version .calendar} {prerelease metadata : Text} :
    new .calendar major minor patch prerelease metadata = .ok v ↔
      v.major = major ∧ v.minor = minor ∧ v.patch = patch ∧ v.prerelease.text = prerelease ∧
        v.spelling = v.text := by
  rw [new, ofParts_eq_ok, if_pos rfl,
    Dotted.parts_eq_pieces fun _ => Identifier.wellFormed_of_canonical,
    v.metadata.eq_none_of_calendar]
  simp [Dotted.none]

theorem read_eq_ok :
    read strict s t = .ok v ↔
      let p := Parts.ofText (s.untagged t)
      hasShape strict s p ∧
        segment p.core[0]? = .ok v.major ∧ segment p.core[1]? = .ok v.minor ∧
        segment p.core[2]? = .ok v.patch ∧ v.prerelease.parts = p.prerelease ∧
        v.metadata.parts = p.metadata ∧ v.spelling = t := by
  rw [read]
  split
  case isFalse h => simp [h]
  case isTrue h =>
    simp only [h, true_and, bind_eq_ok, pure_eq_ok, ofParts_eq_ok]
    constructor
    case mp =>
      rintro ⟨major, hM, minor, hm, patch, hp, w, ⟨rfl, rfl, rfl, hr, hl, _⟩, rfl⟩
      exact ⟨hM, hm, hp, hr, hl, rfl⟩
    case mpr =>
      rintro ⟨hM, hm, hp, hr, hl, rfl⟩
      exact ⟨_, hM, _, hm, _, hp, v.canonical, ⟨rfl, rfl, rfl, hr, hl, rfl⟩, rfl⟩

theorem spelling_of_read (h : read strict s t = .ok v) : v.spelling = t := by
  have ⟨_, _, _, _, _, _, ht⟩ := read_eq_ok.mp h
  exact ht

end Version
end VersionConstraints
