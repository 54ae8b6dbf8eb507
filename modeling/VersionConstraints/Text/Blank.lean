import VersionConstraints.Text.Basic

namespace VersionConstraints.Text

-- The code points with the Unicode property White_Space, as inclusive ranges.
def blanks : List (Nat × Nat) :=
  [(0x0009, 0x000D), (0x0020, 0x0020), (0x0085, 0x0085), (0x00A0, 0x00A0), (0x1680, 0x1680),
   (0x2000, 0x200A), (0x2028, 0x2029), (0x202F, 0x202F), (0x205F, 0x205F), (0x3000, 0x3000)]

def isBlank (c : Char) : Bool :=
  blanks.any fun (first, last) => first ≤ c.toNat && c.toNat ≤ last

def trim (t : Text) : Text :=
  ((t.dropWhile isBlank).reverse.dropWhile isBlank).reverse

theorem trim_isInfix (t : Text) : trim t <:+: t := by
  have h : trim t <+: t.dropWhile isBlank := by
    rw [← List.reverse_suffix, trim, List.reverse_reverse]
    exact List.dropWhile_suffix _
  exact h.isInfix.trans (List.dropWhile_suffix _).isInfix

theorem length_trim_le (t : Text) : (trim t).length ≤ t.length :=
  (trim_isInfix t).length_le

-- The non-empty runs between the characters that separate.
def runs (separates : Char → Bool) (t : Text) : List Text :=
  (t.splitOnP separates).filter (!·.isEmpty)

variable {separates : Char → Bool} {r t : Text}

-- Nothing but separators is lost.
theorem flatten_splitOnP (separates : Char → Bool) (t : Text) :
    (t.splitOnP separates).flatten = t.filter (!separates ·) := by
  induction t
  case nil => rfl
  case cons c t hi =>
    rw [List.splitOnP_cons_eq_if_modifyHead]
    split
    case isTrue hc => simpa [hc] using hi
    case isFalse hc =>
      have ⟨p, ps, hp⟩ := List.exists_cons_of_ne_nil <| List.splitOnP_ne_nil separates t
      rw [hp] at hi ⊢
      rw [List.filter_cons_of_pos (by simpa using hc), ← hi]
      rfl

theorem sublist_of_mem_splitOnP (h : r ∈ t.splitOnP separates) :
    List.Sublist r (t.filter (!separates ·)) := by
  rw [← flatten_splitOnP]
  exact List.sublist_flatten_of_mem h

theorem not_separates_of_mem_runs (h : r ∈ runs separates t) : ∀ c ∈ r, separates c = false := by
  intro c hc
  have h := (sublist_of_mem_splitOnP (List.mem_filter.mp h).1).mem hc
  simpa using (List.mem_filter.mp h).2

-- Some character is lost where there is a separator.
theorem length_lt_of_mem_runs (ht : t.any separates) (h : r ∈ runs separates t) :
    r.length < t.length := by
  have hr := (sublist_of_mem_splitOnP (List.mem_filter.mp h).1).length_le
  have ht : (t.filter (!separates ·)).length < t.length := by
    rw [List.length_filter_lt_length_iff_exists]
    simpa using ht
  omega

end VersionConstraints.Text
