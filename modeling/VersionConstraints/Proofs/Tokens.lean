import VersionConstraints.Proofs.Acceptance
import VersionConstraints.Proofs.Clauses

namespace VersionConstraints

namespace Token

variable {s : Scheme} {t : Text} {cs : List (Constraint s)}

theorem solid_of_expand (h : expand s t = .ok cs) : t ≠ [] ∧ Solid t := by
  have ⟨_, _, hw⟩ := exists_written_of_expand h
  exact hw.solid

end Token

namespace Flat

variable {s : Scheme} {c : Char} {clause : Text} {ts texts : List Text}
variable {group : List (Constraint s)}

-- All that is lost of a clause is what separates tokens, and the hyphen of a range.
theorem exists_mem_tokens (ht : tokens clause = .ok ts) (hs : Clause.separates c = false)
    (hn : c ≠ '-') (hc : c ∈ clause) : ∃ token ∈ ts, c ∈ token := by
  have hb := Clause.not_isBlank_of_not_separates hs
  have hc := Text.mem_trim hb hc
  rw [tokens] at ht
  split at ht
  case h_1 =>
    cases ht
    exact Text.exists_mem_runs hs hc
  case h_2 lower upper hp =>
    cases ht
    have not_hyphen : c ∉ Clause.hyphen := by
      simp only [Clause.hyphen, List.mem_cons, List.not_mem_nil, or_false, not_or]
      refine ⟨?_, hn, ?_⟩ <;> rintro rfl <;> contradiction
    have found (op : Text) {side : Text} (hm : c ∈ side) :
        ∃ token ∈ Text.runs Clause.separates (op ++ Text.trim side), c ∈ token :=
      Text.exists_mem_runs hs <| List.mem_append_right op <| Text.mem_trim hb hm
    rw [Text.splitAround.eq_append_of_pair (by decide) hp, List.mem_append, List.mem_append] at hc
    obtain hc | hc | hc := hc
    case inl =>
      obtain ⟨token, hm, hc⟩ := found ['>', '='] hc
      exact ⟨token, List.mem_append_left _ hm, hc⟩
    case inr.inl => contradiction
    case inr.inr =>
      obtain ⟨token, hm, hc⟩ := found ['<', '='] hc
      exact ⟨token, List.mem_append_right _ hm, hc⟩
  case h_3 => contradiction

-- What is put in a row can be expanded in a row.
theorem expand_map {α : Type} {xs : List α} {token : α → Text} {result : α → List (Constraint s)}
    (h : ∀ x ∈ xs, Token.expand s (token x) = .ok (result x)) :
    expand s (xs.map token) = .ok (xs.flatMap result) := by
  induction xs
  case nil => rfl
  case cons x xs hi =>
    have ⟨hx, hxs⟩ := List.forall_mem_cons.mp h
    rw [List.map_cons, List.flatMap_cons, ← List.singleton_append, expand_append_eq_ok,
      expand_singleton]
    exact ⟨_, _, hx, hi hxs, rfl⟩

theorem solid_of_mem (h : expand s ts = .ok group) :
    ∀ token ∈ ts, token ≠ [] ∧ Token.Solid token := by
  intro token ht
  have ⟨_, he⟩ := exists_expand_of_mem h ht
  exact Token.solid_of_expand he

section Bars

variable {separates : Char → Bool} {t : Text} (space : separates ' ')
include space

-- The blanks next to double bars are no part of a token.
theorem runs_clauses_bars (hb : '|' ∉ t) (rest : Text) :
    (clauses (t ++ [' ', '|', '|', ' '] ++ rest)).map (Text.runs separates) =
      Text.runs separates t :: (clauses rest).map (Text.runs separates) := by
  have he :
      t ++ [' ', '|', '|', ' '] ++ rest = (t ++ [' ']) ++ (['|', '|'] ++ ' ' :: rest) := by simp
  have hb : '|' ∉ t ++ [' '] := by simpa using hb
  have hr : ¬ ['|', '|'] <+: ' ' :: rest := by simp [List.cons_prefix_cons]
  have hs : ∀ d ∈ [' '], separates d := List.forall_mem_singleton.mpr space
  have ⟨p, ps, hp⟩ := Text.splitAround.exists_cons ['|', '|'] rest
  have front : Text.runs separates (' ' :: p) = Text.runs separates p := Text.runs_append_left hs p
  simp only [clauses, he, Text.splitAround.append_sep hb, Text.splitAround.cons_of_not hr, hp,
    List.modifyHead_cons, List.map_cons, Text.runs_append_right hs, front]

theorem runs_clauses (hn : texts ≠ []) (hb : ∀ t ∈ texts, '|' ∉ t) :
    (clauses ([' ', '|', '|', ' '].intercalate texts)).map (Text.runs separates) =
      texts.map (Text.runs separates) := by
  induction texts
  case nil => contradiction
  case cons t texts hi =>
    have ⟨ht, hb⟩ := List.forall_mem_cons.mp hb
    by_cases hn : texts = []
    case pos =>
      have hs := Text.splitAround.eq_singleton fun h : ['|', '|'] <:+: t => ht <| h.subset (.head _)
      rw [hn, List.intercalate_singleton, clauses, hs]
    case neg =>
      rw [List.intercalate_cons_of_ne_nil hn, runs_clauses_bars space ht, hi hn hb, List.map_cons]

end Bars

-- Tokens, written as an expression with one clause for each list of them.
def text (tokens : List (List Text)) : Text :=
  [' ', '|', '|', ' '].intercalate <| tokens.map [' '].intercalate

end Flat

namespace Clause

variable {s : Scheme} {clause : Text} {ts : List Text} {group : List (Constraint s)}

namespace Reads

theorem exists_tokens (h : Reads s clause group) :
    ∃ ts, Flat.tokens clause = .ok ts ∧ Flat.expand s ts = .ok group := by
  have he := h.expand
  rwa [expand_eq_flat h.nonblank, bind_eq_ok] at he

-- Neither a token nor what separates tokens has a bar in it.
theorem not_bar (h : Reads s clause group) : '|' ∉ clause := by
  intro hb
  have ⟨ts, ht, he⟩ := h.exists_tokens
  have ⟨token, hm, hb⟩ := Flat.exists_mem_tokens ht (by decide) (by decide) hb
  exact ((Flat.solid_of_mem he token hm).2 _ hb).2 rfl

-- Tokens that can be expanded are read as they are, whatever separates them.
theorem of_tokens (hn : ts ≠ []) (he : Flat.expand s ts = .ok group)
    (hr : Text.runs separates clause = ts) : Reads s clause group := by
  rw [iff_of_runs, hr]
  case hn => rwa [hr]
  case h => exact hr ▸ Flat.hyphen_not_mem he
  exact he

end Reads
end Clause

namespace Flat

variable {s : Scheme} {ts : List Text} {tokens : List (List Text)} {group : List (Constraint s)}

theorem runs_tokens (he : expand s ts = .ok group) :
    Text.runs Clause.separates ([' '].intercalate ts) = ts := by
  apply Text.runs_intercalate_solid rfl
  case hn => exact fun hm => (solid_of_mem he [] hm).1 rfl
  case h => exact fun token hm c hc => ((solid_of_mem he token hm).2 c hc).1

theorem not_bar_tokens (he : expand s ts = .ok group) : '|' ∉ [' '].intercalate ts := by
  intro h
  cases Text.mem_intercalate h
  case inl h => exact absurd h (by decide)
  case inr h =>
    have ⟨token, hm, h⟩ := h
    exact ((solid_of_mem he token hm).2 _ h).2 rfl

theorem runs_clauses_text (hn : tokens ≠ [])
    (he : ∀ ts ∈ tokens, ∃ group, expand s ts = .ok group) :
    (clauses (text tokens)).map (Text.runs Clause.separates) = tokens := by
  have hb : ∀ t ∈ tokens.map [' '].intercalate, '|' ∉ t := by
    intro t ht
    have ⟨ts, hm, ht⟩ := List.mem_map.mp ht
    have ⟨_, he⟩ := he ts hm
    exact ht ▸ not_bar_tokens he
  have hr : tokens.map (Text.runs Clause.separates ∘ [' '].intercalate) = tokens.map id := by
    apply List.map_congr_left
    intro ts hm
    have ⟨_, he⟩ := he ts hm
    exact runs_tokens he
  rw [text, runs_clauses rfl (by simpa using hn) hb, List.map_map, hr, List.map_id]

end Flat

namespace ConstraintSet

variable {s : Scheme} {expression t : Text} {set : ConstraintSet s} {tokens : List (List Text)}
variable {groups : List (List (Constraint s))} {cs : List (Constraint s)}

-- A token is an expression of its own.
theorem parse_of_expand (h : Token.expand s t = .ok cs) :
    parse s t = .ok { groups := [cs], expression := t } := by
  have ⟨hn, ht⟩ := Token.solid_of_expand h
  rw [parse_token hn ht, h]
  rfl

theorem groups_ne_nil (h : parse s expression = .ok set) : set.groups ≠ [] := by
  intro hs
  have hc := (parse_eq_ok.mp h).2
  rw [hs, List.forall₂_nil_right_iff] at hc
  exact Text.splitAround.ne_nil _ _ hc

-- Tokens are found again where they are written. Nothing that is put between them is read as a part
-- of one, and no hyphen among them makes a range.
theorem parse_text (hn : tokens ≠ [])
    (h : List.Forall₂ (fun ts group => ts ≠ [] ∧ Flat.expand s ts = .ok group) tokens groups) :
    parse s (Flat.text tokens) = .ok { groups, expression := Flat.text tokens } := by
  have he : ∀ ts ∈ tokens, ∃ group, Flat.expand s ts = .ok group := by
    intro ts hm
    have ⟨group, _, _, he⟩ := exists_rel_of_mem_left h hm
    exact ⟨group, he⟩
  rw [← Flat.runs_clauses_text hn he, List.forall₂_map_left_iff] at h
  have reads := h.imp fun _ _ ⟨hn, he⟩ => Clause.Reads.of_tokens hn he rfl
  exact parse_eq_ok.mpr ⟨rfl, reads⟩

end ConstraintSet
end VersionConstraints
