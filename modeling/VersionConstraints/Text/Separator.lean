import VersionConstraints.Text.Basic

namespace VersionConstraints.Text

-- The pieces around the occurrences of `sep` that are met from left to right, where an
-- occurrence starts after the end of the one before it. The counter is how much of the last
-- occurrence is still to be passed over.
def splitAround (sep : Text) (t : Text) : List Text :=
  go 0 t
where
  go : Nat → Text → List Text
    | _, [] => [[]]
    | n + 1, _ :: cs => go n cs
    | 0, c :: cs =>
      if sep.isPrefixOf (c :: cs) then [] :: go (sep.length - 1) cs
      else (go 0 cs).modifyHead (c :: ·)

namespace splitAround

theorem go_skip (sep : Text) (s t : Text) : go sep s.length (s ++ t) = go sep 0 t := by
  induction s
  case nil => rfl
  case cons c s h => simpa [go] using h

theorem nil (sep : Text) : splitAround sep [] = [[]] :=
  rfl

theorem cons_of_not {sep : Text} {c : Char} {cs : Text} (h : ¬ sep <+: c :: cs) :
    splitAround sep (c :: cs) = (splitAround sep cs).modifyHead (c :: ·) := by
  simp [splitAround, go, h]

theorem sep_append {sep : Text} (h : sep ≠ []) (t : Text) :
    splitAround sep (sep ++ t) = [] :: splitAround sep t := by
  match sep, h with
  | c :: s, _ => simp [splitAround, go, go_skip]

theorem ne_nil (sep : Text) (t : Text) : splitAround sep t ≠ [] := by
  suffices ∀ n, go sep n t ≠ [] from this 0
  induction t
  case nil => intro n; cases n <;> simp [go]
  case cons c cs h =>
    intro n
    cases n
    case zero => simp only [go]; split <;> simp [h 0]
    case succ n => simpa [go] using h n

-- A text is read by passing over either an occurrence of the separator
-- or one character at which none starts.
theorem induction {sep : Text} (h : sep ≠ []) {motive : Text → Prop} (nil : motive [])
    (sep_append : ∀ t, motive t → motive (sep ++ t))
    (cons : ∀ c t, ¬ sep <+: c :: t → motive t → motive (c :: t)) (t : Text) : motive t := by
  by_cases hp : sep <+: t
  case pos =>
    have ⟨t', ht⟩ := hp
    have hl : t'.length < t.length := by
      have := List.length_pos_iff.mpr h
      rw [← ht, List.length_append]
      omega
    exact ht ▸ sep_append t' (induction h nil sep_append cons t')
  case neg =>
    match t with
    | [] => exact nil
    | c :: t => exact cons c t hp (induction h nil sep_append cons t)
termination_by t.length

theorem exists_cons (sep : Text) (t : Text) : ∃ p ps, splitAround sep t = p :: ps :=
  List.exists_cons_of_ne_nil (ne_nil sep t)

theorem intercalate {sep : Text} (h : sep ≠ []) (t : Text) :
    sep.intercalate (splitAround sep t) = t := by
  induction t using induction h
  case nil => rfl
  case sep_append t hi =>
    have ⟨p, ps, hp⟩ := exists_cons sep t
    rw [sep_append h, hp, List.intercalate_cons_cons, ← hp, hi, List.nil_append]
  case cons c t hc hi =>
    have ⟨p, ps, hp⟩ := exists_cons sep t
    rw [cons_of_not hc, hp, List.modifyHead_cons]
    rw [hp] at hi
    cases ps <;> simp_all [List.intercalate_cons_cons]

theorem eq_append_of_pair {sep t l r : Text} (hs : sep ≠ []) (h : splitAround sep t = [l, r]) :
    t = l ++ (sep ++ r) := by
  rw [← intercalate hs t, h]
  simp [List.intercalate_cons_cons]

end splitAround
end VersionConstraints.Text
