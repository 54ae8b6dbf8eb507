import VersionConstraints.Proofs.Expansion

namespace VersionConstraints

namespace Token

variable {s : Scheme} {op : Text} {cs : List (Constraint s)}

-- A hyphen alone is no body.
theorem expand_hyphen (ho : op ∈ operators) : expand s (op ++ ['-']) ≠ .ok cs := by
  have h : ∀ op ∈ operators, (expand s (op ++ ['-'])).isOk = false := by cases s <;> decide
  intro he
  have h := h op ho
  rw [he] at h
  contradiction

theorem expand_operator_alone (ho : op ∈ operators) : expand s op ≠ .ok cs := by
  intro he
  rw [← List.append_nil op] at he
  exact body_ne_nil_of_expand ho (by simp) he rfl

theorem solid_operator (ho : op ∈ operators) : Solid op := by
  rw [← List.append_nil op]
  exact solid_append ho (by simp)

end Token

namespace Flat

variable {s : Scheme} {ts us : List Text} {token : Text} {group : List (Constraint s)}

theorem expand_append_eq_ok :
    expand s (ts ++ us) = .ok group ↔
      ∃ front back, expand s ts = .ok front ∧ expand s us = .ok back ∧ group = front ++ back := by
  simp only [expand_append, bind_eq_ok, pure_eq_ok]
  grind

theorem exists_expand_of_mem (h : expand s ts = .ok group) (ht : token ∈ ts) :
    ∃ cs, Token.expand s token = .ok cs := by
  have ⟨_, _, hts⟩ := List.append_of_mem ht
  rw [hts, expand_append_eq_ok] at h
  have ⟨_, _, _, h, _⟩ := h
  rw [← List.singleton_append, expand_append_eq_ok] at h
  have ⟨cs, _, h, _⟩ := h
  exact ⟨cs, expand_singleton ▸ h⟩

theorem hyphen_not_mem (h : expand s ts = .ok group) : ['-'] ∉ ts := by
  intro hm
  have ⟨_, he⟩ := exists_expand_of_mem h hm
  exact Token.expand_hyphen (.head _) he

end Flat

namespace Clause

variable {s : Scheme} {clause lower upper op p t : Text} {group group' : List (Constraint s)}

theorem split_of_not_isInfix (h : ¬ hyphen <:+: t) :
    Text.splitAround hyphen (Text.trim t) = [Text.trim t] :=
  Text.splitAround.eq_singleton fun hi => h <| hi.trans (Text.trim_isInfix t)

theorem runs_trim (t : Text) : Text.runs separates (Text.trim t) = Text.runs separates t :=
  Text.runs_trim (fun c hc => by simp [separates, hc]) t

-- A hyphen between spaces is a run of its own.
theorem runs_range (lower upper : Text) :
    Text.runs separates (lower ++ (hyphen ++ upper)) =
      Text.runs separates lower ++ ['-'] :: Text.runs separates upper := by
  have hs : lower ++ (hyphen ++ upper) = lower ++ ' ' :: (['-'] ++ ' ' :: upper) := rfl
  have hr : Text.runs separates ['-'] = [['-']] := rfl
  rw [hs, Text.runs_append_cons rfl, Text.runs_append_cons rfl, hr]
  rfl

theorem not_hyphen_of_runs (h : ['-'] ∉ Text.runs separates t) : ¬ hyphen <:+: t := by
  intro ⟨x, y, ht⟩
  rw [← ht, List.append_assoc, runs_range] at h
  exact h <| List.mem_append_right _ (.head _)

-- A clause that is not blank, and the group that it is read as.
structure Reads (s : Scheme) (clause : Text) (group : List (Constraint s)) : Prop where
  nonblank : Text.trim clause ≠ []
  expand   : Clause.expand s clause = .ok group

namespace Reads

theorem unique (h : Reads s clause group) (h' : Reads s clause group') : group = group' :=
  Except.ok.inj <| h.expand.symm.trans h'.expand

theorem iff_of_single (hn : Text.trim clause ≠ [])
    (hs : Text.splitAround hyphen (Text.trim clause) = [p]) :
    Reads s clause group ↔ Flat.expand s (Text.runs separates (Text.trim clause)) = .ok group := by
  rw [← expand_runs hs hn]
  exact ⟨Reads.expand, Reads.mk hn⟩

-- A clause whose tokens are no hyphens is the list of its tokens, whatever stands between them.
theorem iff_of_runs (hn : Text.runs separates clause ≠ [])
    (h : ['-'] ∉ Text.runs separates clause) :
    Reads s clause group ↔ Flat.expand s (Text.runs separates clause) = .ok group := by
  have hb : Text.trim clause ≠ [] := by
    intro hb
    rw [← runs_trim, hb] at hn
    exact hn rfl
  rw [iff_of_single hb <| split_of_not_isInfix <| not_hyphen_of_runs h, runs_trim]

theorem iff_of_pair (hs : Text.splitAround hyphen (Text.trim clause) = [lower, upper]) :
    Reads s clause group ↔
      Flat.expand s (Text.runs separates (['>', '='] ++ Text.trim lower) ++
        Text.runs separates (['<', '='] ++ Text.trim upper)) = .ok group := by
  have hn : Text.trim clause ≠ [] := by
    intro hn
    rw [hn, Text.splitAround.nil] at hs
    simp at hs
  have he := expand_eq_flat (s := s) hn
  rw [Flat.tokens, hs] at he
  constructor
  case mp => exact fun h => he.symm.trans h.expand
  case mpr => exact fun h => ⟨hn, he.trans h⟩

theorem single_or_pair (h : Reads s clause group) :
    Text.splitAround hyphen (Text.trim clause) = [Text.trim clause] ∨
      ∃ lower upper, Text.splitAround hyphen (Text.trim clause) = [lower, upper] := by
  have he := h.expand
  rw [expand_eq_flat h.nonblank, Flat.tokens] at he
  split at he
  case h_1 p hs => exact .inl <| by rw [hs, Text.splitAround.eq_of_singleton (by decide) hs]
  case h_2 lower upper hs => exact .inr ⟨lower, upper, hs⟩
  case h_3 => contradiction

theorem iff_of_operator (hn : op ≠ []) (ho : op ∈ Token.operators) (ht : ¬ hyphen <:+: t) :
    Reads s (op ++ Text.trim t) group ↔
      Flat.expand s (Text.runs separates (op ++ Text.trim t)) = .ok group := by
  have hb : ∀ c ∈ op, Text.isBlank c = false := fun c hc =>
    not_isBlank_of_not_separates (Token.solid_operator ho c hc).1
  rw [← expand_side hn hb ht]
  refine ⟨Reads.expand, Reads.mk ?_⟩
  rw [Text.trim_append_trim hn hb]
  exact List.append_ne_nil_of_left_ne_nil hn _

end Reads
end Clause

namespace ConstraintSet

variable {s : Scheme} {clause expression : Text} {g : List (Constraint s)}
variable {set : ConstraintSet s} {r : Precedence}

theorem group_eq_ok : group s expression clause = .ok g ↔ Clause.Reads s clause g := by
  rw [group]
  split
  case isTrue h =>
    constructor
    case mp =>
      intro he
      contradiction
    case mpr => exact fun hr => absurd (List.isEmpty_iff.mp h) hr.nonblank
  case isFalse h => exact ⟨Clause.Reads.mk (by simpa using h), Clause.Reads.expand⟩

theorem clauses_of_blank (h : Text.trim expression = []) :
    Flat.clauses expression = [expression] := by
  have ⟨x, y, hx, hy, he⟩ := Text.exists_pad expression
  apply Text.splitAround.eq_singleton
  intro hi
  have hb : '|' ∈ expression := hi.subset (.head _)
  rw [he, h, List.nil_append] at hb
  cases List.mem_append.mp hb
  case inl hb => exact absurd (hx _ hb) (by decide)
  case inr hb => exact absurd (hy _ hb) (by decide)

-- An expression is read clause by clause.
theorem parse_eq_ok :
    parse s expression = .ok set ↔
      set.expression = expression ∧
        List.Forall₂ (Clause.Reads s) (Flat.clauses expression) set.groups := by
  rw [parse]
  split
  case isTrue hb =>
    have hb := List.isEmpty_iff.mp hb
    constructor
    case mp =>
      intro he
      contradiction
    case mpr =>
      rintro ⟨_, h⟩
      rw [clauses_of_blank hb, List.forall₂_cons_left_iff] at h
      obtain ⟨_, _, h, _⟩ := h
      exact absurd hb h.nonblank
  case isFalse =>
    simp only [bind_eq_ok, pure_eq_ok, mapM_eq_ok, group_eq_ok, Flat.clauses]
    constructor
    case mp =>
      rintro ⟨groups, h, rfl⟩
      exact ⟨rfl, h⟩
    case mpr =>
      rintro ⟨rfl, h⟩
      exact ⟨_, h, rfl⟩

section Clause

variable (h : ¬ ['|', '|'] <:+: clause)
include h

-- Without bars there is one clause.
theorem parse_clause_eq_ok :
    parse s clause = .ok set ↔
      ∃ g, Clause.Reads s clause g ∧ set = { groups := [g], expression := clause } := by
  rw [parse_eq_ok, Flat.clauses, Text.splitAround.eq_singleton h]
  cases set
  simp only [List.forall₂_cons_left_iff, List.forall₂_nil_left_iff, mk.injEq]
  grind

theorem parses_clause : Parses s clause ↔ ∃ g, Clause.Reads s clause g := by
  simp [Parses, parse_clause_eq_ok h]

theorem accepts_clause :
    Accepts s clause r ↔ ∃ g, Clause.Reads s clause g ∧ ∀ c ∈ g, c.accepts r := by
  simp only [Accepts, parse_clause_eq_ok h]
  constructor
  case mp =>
    rintro ⟨_, ⟨g, hg, rfl⟩, hc⟩
    exact ⟨g, hg, by simpa [check] using hc⟩
  case mpr =>
    rintro ⟨g, hg, hc⟩
    exact ⟨_, ⟨g, hg, rfl⟩, by simpa [check] using hc⟩

theorem accepts_of_reads (hr : Clause.Reads s clause g) :
    Accepts s clause r ↔ ∀ c ∈ g, c.accepts r := by
  rw [accepts_clause h]
  exact ⟨fun ⟨_, hr', hc⟩ => hr.unique hr' ▸ hc, fun hc => ⟨_, hr, hc⟩⟩

end Clause

end ConstraintSet
end VersionConstraints
