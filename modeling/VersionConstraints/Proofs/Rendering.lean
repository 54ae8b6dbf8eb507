import VersionConstraints.Constraint.Token
import VersionConstraints.Proofs.Parts
import VersionConstraints.Proofs.Reading

namespace VersionConstraints

theorem Identifier.not_mark_of_mem {c : Char} {i : Text} (h : wellFormed i) (hc : c ∈ i) :
    c ≠ '+' ∧ c ≠ '.' := by
  simp only [wellFormed, Bool.and_eq_true, List.all_eq_true] at h
  have h := h.2 c hc
  constructor <;> intro he <;> exact absurd (he ▸ h) (by decide)

theorem Parts.inCore_of_isDigit {c : Char} (h : c.isDigit) : inCore c ∧ c ≠ '.' := by
  simp only [inCore, Bool.and_eq_true, bne_iff_ne]
  refine ⟨⟨?_, ?_⟩, ?_⟩ <;> intro he <;> exact absurd (he ▸ h) (by decide)

namespace Parts

variable {c : Char} {pieces : List Text} {p : Parts}

theorem inBody_of_mem_dotted (h : ∀ i ∈ pieces, ∀ c ∈ i, Token.inBody c)
    (hc : c ∈ Text.dotted pieces) :
    Token.inBody c := by
  cases Text.mem_dotted hc
  case inl hc => rw [hc]; rfl
  case inr hc =>
    have ⟨i, hi, hc⟩ := hc
    exact h i hi c hc

theorem inBody_of_mem_mark {d : Char} (hd : Token.inBody d)
    (hp : ∀ i ∈ pieces, Identifier.wellFormed i) (hc : c ∈ mark d pieces) : Token.inBody c := by
  rw [mark] at hc
  split at hc
  case isTrue => contradiction
  case isFalse =>
    cases List.mem_cons.mp hc
    case inl hc => rwa [hc]
    case inr hc =>
      refine inBody_of_mem_dotted (fun i hi c hc => ?_) hc
      have hi := hp i hi
      simp only [Identifier.wellFormed, Identifier.isLetter, Bool.and_eq_true,
        List.all_eq_true] at hi
      cases Bool.or_eq_true_iff.mp (hi.2 c hc)
      case inl hc => simp [Token.inBody, hc]
      case inr hc => rw [beq_iff_eq.mp hc]; rfl

-- Numbers and identifiers are made of what the body of a token can hold, and so are their marks.
theorem inBody_of_mem_text (core : ∀ n ∈ p.core, ∀ c ∈ n, c.isDigit)
    (prerelease : ∀ i ∈ p.prerelease, Identifier.wellFormed i)
    (metadata : ∀ i ∈ p.metadata, Identifier.wellFormed i) : ∀ c ∈ p.text, Token.inBody c := by
  intro c hc
  rw [text, List.mem_append, List.mem_append] at hc
  obtain (hc | hc) | hc := hc
  case inl.inl =>
    refine inBody_of_mem_dotted (fun n hn c hc => ?_) hc
    simp [Token.inBody, Char.isAlphanum, core n hn c hc]
  case inl.inr => exact inBody_of_mem_mark rfl prerelease hc
  case inr => exact inBody_of_mem_mark rfl metadata hc

end Parts

namespace Scheme

variable {s : Scheme} {M m p M' m' p' : Segment} {i n : Text} {c : Char}

theorem wellFormed_of_label (h : s.label i) : Identifier.wellFormed i := by
  cases s
  case semantic => exact h
  case calendar => contradiction

theorem core_ne_nil : s.core M m p ≠ [] := by
  cases s <;> simp [core]

theorem isDigit_of_mem_core (hn : n ∈ s.core M m p) (hc : c ∈ n) : c.isDigit := by
  cases s <;> simp only [core, List.map_cons, List.map_nil, List.mem_cons, List.not_mem_nil,
    or_false] at hn
  case semantic =>
    obtain rfl | rfl | rfl := hn
    all_goals exact Decimal.isDigit_of_mem_digits hc
  case calendar =>
    obtain rfl | rfl | rfl := hn
    case inl => exact Decimal.isDigit_of_mem_digits hc
    all_goals exact Decimal.isDigit_of_mem_padded hc

-- Padding does not make two numbers alike.
theorem core_inj (h : s.core M m p = s.core M' m' p') : M = M' ∧ m = m' ∧ p = p' := by
  simp only [← UInt64.toNat_inj]
  cases s <;> simp only [core, List.map_cons, List.map_nil, List.cons.injEq, and_true] at h
  case semantic =>
    exact ⟨Decimal.digits_inj h.1, Decimal.digits_inj h.2.1, Decimal.digits_inj h.2.2⟩
  case calendar =>
    exact ⟨Decimal.digits_inj h.1, Decimal.padded_inj h.2.1, Decimal.padded_inj h.2.2⟩

end Scheme

namespace Version

variable {s : Scheme} {v w : Version s}

theorem plain_parts (v : Version s) : v.parts.Plain where
  core_ne_nil := Scheme.core_ne_nil
  core _ hn _ hc := Parts.inCore_of_isDigit <| Scheme.isDigit_of_mem_core hn hc
  prerelease i hi _ hc :=
    Identifier.not_mark_of_mem (Identifier.wellFormed_of_canonical <| v.prerelease.valid i hi) hc
  metadata i hi hc :=
    (Identifier.not_mark_of_mem (Scheme.wellFormed_of_label <| v.metadata.valid i hi) hc).2 rfl

-- Only the numbers of a version can make its parts unfit to be read again.
theorem hasShape_parts_eq (strict : Bool) (v : Version s) :
    hasShape strict s v.parts = s.admits strict v.parts.core := by
  have hr : v.parts.prerelease.all Identifier.wellFormed :=
    List.all_eq_true.mpr fun i hi => Identifier.wellFormed_of_canonical <| v.prerelease.valid i hi
  have hl : v.parts.metadata.all s.label := List.all_eq_true.mpr v.metadata.valid
  rw [hasShape, hr, hl, Bool.and_true, Bool.and_true]

-- The text of a version tells its parts, whatever the scheme.
theorem ofText_text (v : Version s) : Parts.ofText v.text = v.parts :=
  Parts.ofText_text v.plain_parts

theorem text_ne_nil (v : Version s) : v.text ≠ [] := by
  intro h
  have hl : v.parts.core.length = 1 := by rw [← ofText_text, h]; rfl
  cases s <;> simp [parts, Scheme.core] at hl

theorem parts_eq_of_text_eq (h : v.text = w.text) : v.parts = w.parts := by
  rw [← ofText_text, h, ofText_text]

theorem text_eq_iff : v.text = w.text ↔ (v : Precedence) = w ∧ v.metadata = w.metadata := by
  constructor
  case mp =>
    intro h
    have h := parts_eq_of_text_eq h
    simp only [parts, Parts.mk.injEq] at h
    have ⟨hc, hr, hl⟩ := h
    have ⟨hM, hm, hp⟩ := Scheme.core_inj hc
    exact ⟨Precedence.ext hM hm hp (Dotted.ext hr), Dotted.ext hl⟩
  case mpr =>
    intro ⟨hp, hl⟩
    simp only [text, parts, hp, hl]

-- A text is made of what the body of a token can hold.
theorem inBody_of_mem_text (v : Version s) : ∀ c ∈ v.text, Token.inBody c := by
  apply Parts.inBody_of_mem_text
  case core => exact fun _ hn _ hc => Scheme.isDigit_of_mem_core hn hc
  case prerelease => exact fun i hi => Identifier.wellFormed_of_canonical <| v.prerelease.valid i hi
  case metadata => exact fun i hi => Scheme.wellFormed_of_label <| v.metadata.valid i hi

end Version
end VersionConstraints
