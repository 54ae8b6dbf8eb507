import VersionConstraints.Proofs.Rendering

namespace VersionConstraints

-- The numbers that make a core when it is read loosely. A semantic core has one to three digit runs
-- of any length. A calendar core has a year of two or four digits, and then at most a month and a
-- day of one or two digits each.
def Scheme.Numbers : Scheme → List Text → Prop
  | semantic, core => core ≠ [] ∧ core.length ≤ 3 ∧ ∀ n ∈ core, Decimal.isRun n
  | calendar, core =>
    (∀ n ∈ core, Decimal.isRun n) ∧ ∃ year rest, core = year :: rest ∧
      (year.length = 2 ∨ year.length = 4) ∧ rest.length ≤ 2 ∧ ∀ n ∈ rest, n.length ≤ 2

-- The texts of versions, told from the parts that are written one after another: a tag in front of
-- a semantic version, numbers, identifiers after a hyphen and labels after a plus sign.
-- Only the numbers have to be there.
structure Shape (s : Scheme) (t : Text) (p : Parts) : Prop where
  text       : t = p.text ∨ s = .semantic ∧ t = 'v' :: p.text
  core       : s.Numbers p.core
  prerelease : ∀ i ∈ p.prerelease, Identifier.wellFormed i
  metadata   : ∀ i ∈ p.metadata, s.label i

namespace Scheme

variable {s : Scheme} {core : List Text} {t : Text}

theorem numbers_iff : s.Numbers core ↔ core ≠ [] ∧ s.admits false core := by
  cases s
  case semantic => simp [Numbers, admits]
  case calendar =>
    cases core
    case nil => simp [Numbers]
    case cons year rest =>
      simp only [Numbers, admits, List.mem_cons, forall_eq_or_imp, List.cons.injEq, ne_eq,
        reduceCtorEq, not_false_eq_true, true_and, Bool.and_eq_true, Bool.or_eq_true, beq_iff_eq,
        decide_eq_true_eq, List.all_eq_true]
      grind

theorem Numbers.isRun (h : s.Numbers core) : ∀ n ∈ core, Decimal.isRun n := by
  cases s
  case semantic => exact h.2.2
  case calendar => exact h.1

theorem Numbers.length_le (h : s.Numbers core) : core.length ≤ 3 := by
  cases s
  case semantic => exact h.2.1
  case calendar =>
    have ⟨_, year, rest, hc, _, hl, _⟩ := h
    rw [hc, List.length_cons]
    omega

theorem untagged_of_head (h : t.head? ≠ some 'v') : s.untagged t = t := by
  unfold untagged
  split
  case h_1 => simp at h
  case h_2 => rfl

theorem eq_or_eq_of_untagged (s : Scheme) (t : Text) :
    t = s.untagged t ∨ s = .semantic ∧ t = 'v' :: s.untagged t := by
  unfold untagged
  split
  case h_1 => exact .inr ⟨rfl, rfl⟩
  case h_2 => exact .inl rfl

end Scheme

theorem Decimal.isDigit_of_isRun {c : Char} {n : Text} (h : isRun n) (hc : c ∈ n) : c.isDigit := by
  simp only [isRun, Bool.and_eq_true, List.all_eq_true] at h
  exact h.2 c hc

theorem Decimal.ne_nil_of_isRun {n : Text} (h : isRun n) : n ≠ [] := by
  intro hn
  simp [isRun, hn] at h

theorem Parts.head_text {p : Parts} {n : Text} (hn : n ∈ p.core.head?) (h : n ≠ []) :
    p.text.head? = n.head? := by
  match p, hn with
  | ⟨_ :: core, _, _⟩, rfl =>
    cases core <;>
    simp [Parts.text, Text.dotted, List.intercalate_cons_cons, List.head?_append_of_ne_nil _ h]

namespace Shape

variable {s : Scheme} {t : Text} {p q : Parts}

theorem plain (h : Shape s t p) : p.Plain where
  core_ne_nil := (Scheme.numbers_iff.mp h.core).1
  core n hn _ hc := Parts.inCore_of_isDigit <| Decimal.isDigit_of_isRun (h.core.isRun n hn) hc
  prerelease i hi _ hc := Identifier.not_mark_of_mem (h.prerelease i hi) hc
  metadata i hi hc :=
    (Identifier.not_mark_of_mem (Scheme.wellFormed_of_label <| h.metadata i hi) hc).2 rfl

-- The numbers come first, so that the text starts with a digit where it has no tag.
theorem head_text_ne (h : Shape s t p) : p.text.head? ≠ some 'v' := by
  intro hv
  match hc : p.core with
  | [] => exact h.plain.core_ne_nil hc
  | n :: core =>
    have hr := h.core.isRun n (hc ▸ .head _)
    rw [Parts.head_text (by rw [hc]; rfl) (Decimal.ne_nil_of_isRun hr)] at hv
    exact absurd (Decimal.isDigit_of_isRun hr <| List.mem_of_mem_head? hv) (by decide)

theorem untagged_eq (h : Shape s t p) : s.untagged t = p.text := by
  cases h.text
  case inl ht => rw [ht, Scheme.untagged_of_head h.head_text_ne]
  case inr ht =>
    obtain ⟨rfl, rfl⟩ := ht
    rfl

theorem ofText_untagged (h : Shape s t p) : Parts.ofText (s.untagged t) = p := by
  rw [h.untagged_eq, Parts.ofText_text h.plain]

theorem hasShape (h : Shape s t p) : Version.hasShape false s p := by
  simp only [Version.hasShape, Bool.and_eq_true, List.all_eq_true]
  exact ⟨⟨(Scheme.numbers_iff.mp h.core).2, h.prerelease⟩, h.metadata⟩

-- A text has at most one shape.
theorem of_hasShape (h : Version.hasShape false s (Parts.ofText (s.untagged t))) :
    Shape s t (Parts.ofText (s.untagged t)) := by
  simp only [Version.hasShape, Bool.and_eq_true, List.all_eq_true] at h
  obtain ⟨⟨hc, hr⟩, hl⟩ := h
  refine ⟨?text, Scheme.numbers_iff.mpr ⟨List.splitOn_ne_nil _ _, hc⟩, hr, hl⟩
  rw [Parts.text_ofText]
  exact s.eq_or_eq_of_untagged t

end Shape
end VersionConstraints
