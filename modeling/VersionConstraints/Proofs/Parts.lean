import VersionConstraints.Version.Basic
import VersionConstraints.Proofs.Decimal

namespace VersionConstraints

namespace Text

variable {c d : Char} {pieces : List Text}

theorem mem_intercalate (h : c ∈ [d].intercalate pieces) : c = d ∨ ∃ piece ∈ pieces, c ∈ piece := by
  induction pieces
  case nil => contradiction
  case cons p ps hi =>
    cases ps
    case nil => simp_all
    case cons q ps =>
      simp only [List.intercalate_cons_cons, List.mem_append, List.mem_singleton] at h hi
      obtain (h | h) | h := h
      case inl.inl => exact .inr ⟨p, .head _, h⟩
      case inl.inr => exact .inl h
      case inr =>
        cases hi h
        case inl h => exact .inl h
        case inr h =>
          obtain ⟨piece, hm, hc⟩ := h
          exact .inr ⟨piece, .tail _ hm, hc⟩

theorem mem_dotted (h : c ∈ dotted pieces) : c = '.' ∨ ∃ piece ∈ pieces, c ∈ piece :=
  mem_intercalate h

end Text

namespace Parts

section

variable {α : Type _} {q : α → Bool} {a b : List α}

-- A list that ends where the class is left is what is taken.
theorem takeWhile_eq (ha : ∀ c ∈ a, q c) (hb : ∀ c ∈ b.head?, q c = false) :
    (a ++ b).takeWhile q = a := by
  rw [List.takeWhile_append_of_pos ha]
  cases b <;> simp_all

theorem dropWhile_eq (ha : ∀ c ∈ a, q c) (hb : ∀ c ∈ b.head?, q c = false) :
    (a ++ b).dropWhile q = b := by
  rw [List.dropWhile_append_of_pos ha]
  cases b <;> simp_all

theorem head_dropWhile (q : α → Bool) (a : List α) : ∀ c ∈ (a.dropWhile q).head?, q c = false := by
  intro c hc
  have h := List.head?_dropWhile_not q a
  rw [Option.mem_def.mp hc] at h
  simpa using h

end

variable {c : Char} {t : Text} {pieces : List Text} {p : Parts}

theorem mark_marked (h : ∀ d ∈ t.head?, d = c) : mark c (marked c t) = t := by
  match t with
  | [] => rfl
  | d :: t =>
    cases h d rfl
    simp [mark, marked, Text.dotted, List.intercalate_splitOn]

theorem marked_mark (h : ∀ piece ∈ pieces, '.' ∉ piece) : marked c (mark c pieces) = pieces := by
  match pieces with
  | [] => rfl
  | piece :: pieces => simp [mark, marked, Text.dotted, List.splitOn_intercalate _ h]

theorem head_mark (c : Char) (pieces : List Text) : ∀ d ∈ (mark c pieces).head?, d = c := by
  cases pieces <;> simp [mark, eq_comm]

-- The mark that ends the core is a hyphen if it is no plus sign.
theorem head_prerelease (t : Text) :
    ∀ c ∈ ((t.dropWhile inCore).takeWhile (· != '+')).head?, c = '-' := by
  intro c hc
  have hd := head_dropWhile inCore t
  match h : t.dropWhile inCore with
  | [] => simp [h] at hc
  | d :: u =>
    have hi := hd d (by simp [h])
    by_cases hp : d = '+' <;> simp_all [inCore]

-- Nothing is lost when a text is taken apart.
theorem text_ofText (t : Text) : (ofText t).text = t := by
  have hm : ∀ c ∈ ((t.dropWhile inCore).dropWhile (· != '+')).head?, c = '+' := by
    intro c hc
    simpa using head_dropWhile _ _ c hc
  simp only [text, ofText, Text.dotted, List.intercalate_splitOn, mark_marked (head_prerelease t),
    mark_marked hm, List.append_assoc, List.takeWhile_append_dropWhile]

-- The pieces of a text hold none of the marks at which it is taken apart.
structure Plain (p : Parts) : Prop where
  core_ne_nil : p.core ≠ []
  core        : ∀ n ∈ p.core, ∀ c ∈ n, inCore c ∧ c ≠ '.'
  prerelease  : ∀ i ∈ p.prerelease, ∀ c ∈ i, c ≠ '+' ∧ c ≠ '.'
  metadata    : ∀ i ∈ p.metadata, '.' ∉ i

namespace Plain

theorem inCore_of_mem (h : p.Plain) : ∀ c ∈ Text.dotted p.core, inCore c := by
  intro c hc
  cases Text.mem_dotted hc
  case inl hc => rw [hc]; rfl
  case inr hc =>
    have ⟨n, hn, hc⟩ := hc
    exact (h.core n hn c hc).1

theorem not_plus_of_mem (h : p.Plain) : ∀ c ∈ mark '-' p.prerelease, c != '+' := by
  intro c hc
  rw [mark] at hc
  split at hc
  case isTrue => contradiction
  case isFalse =>
    cases List.mem_cons.mp hc
    case inl hc => rw [hc]; rfl
    case inr hc =>
      cases Text.mem_dotted hc
      case inl hc => rw [hc]; rfl
      case inr hc =>
        have ⟨i, hi, hc⟩ := hc
        simpa using (h.prerelease i hi c hc).1

theorem head_marks (p : Parts) :
    ∀ c ∈ (mark '-' p.prerelease ++ mark '+' p.metadata).head?, inCore c = false := by
  intro c hc
  rw [List.head?_append, Option.mem_def, Option.or_eq_some_iff] at hc
  cases hc
  case inl hc => cases head_mark _ _ c hc; rfl
  case inr hc => cases head_mark _ _ c hc.2; rfl

end Plain

theorem ofText_text (h : p.Plain) : ofText p.text = p := by
  have hm : ∀ c ∈ (mark '+' p.metadata).head?, (c != '+') = false := by
    intro c hc
    cases head_mark _ _ c hc
    rfl
  simp only [ofText, text, List.append_assoc, takeWhile_eq h.inCore_of_mem (Plain.head_marks p),
    dropWhile_eq h.inCore_of_mem (Plain.head_marks p), takeWhile_eq h.not_plus_of_mem hm,
    dropWhile_eq h.not_plus_of_mem hm]
  ext1
  case core =>
    exact List.splitOn_intercalate _ (fun n hn hc => (h.core n hn _ hc).2 rfl) h.core_ne_nil
  case prerelease => exact marked_mark fun i hi hc => (h.prerelease i hi _ hc).2 rfl
  case metadata => exact marked_mark h.metadata

end Parts
end VersionConstraints
