import VersionConstraints.Proofs.Tokens

namespace VersionConstraints

namespace Flat

variable {s : Scheme} {ts : List Text} {c d : Constraint s}
variable {before after group : List (Constraint s)}

-- A constraint stands in its group among those that its token was expanded to.
theorem exists_run (h : expand s ts = .ok (before ++ c :: after)) :
    ∃ x y, x <:+ before ∧ y <+: after ∧ Token.expand s c.source = .ok (x ++ c :: y) := by
  induction ts generalizing before
  case nil => simp [expand, pure_eq_ok] at h
  case cons t ts hi =>
    rw [← List.singleton_append, expand_append_eq_ok, expand_singleton] at h
    obtain ⟨front, back, ht, hts, he⟩ := h
    have later {u : List (Constraint s)} (hu : u <:+ before) (hb : back = u ++ c :: after) :
        ∃ x y, x <:+ before ∧ y <+: after ∧ Token.expand s c.source = .ok (x ++ c :: y) := by
      obtain ⟨x, y, hx, hy, he⟩ := hi (hb ▸ hts)
      exact ⟨x, y, hx.trans hu, hy, he⟩
    cases List.append_eq_append_iff.mp he
    case inr hb =>
      obtain ⟨u, hu, hb⟩ := hb
      exact later ⟨front, hu.symm⟩ hb
    case inl hf =>
      obtain ⟨w, hf, hw⟩ := hf
      cases List.cons_eq_append_iff.mp hw
      case inl hw => exact later List.nil_suffix hw.2
      case inr hw =>
        obtain ⟨y, hw, hy⟩ := hw
        rw [hw] at hf
        have hc : c.source = t := (Token.expand_carrying s t front ht).source c (by simp [hf])
        exact ⟨before, y, List.suffix_rfl, ⟨back, hy.symm⟩, by rw [hc, ht, hf]⟩

end Flat

namespace Constraint

variable {s : Scheme} {c d : Constraint s} {ts : List Text} {cs group : List (Constraint s)}

-- What the token of a constraint stands for: the constraint, and at most one other.
def expansion (c : Constraint s) : List (Constraint s) :=
  (Token.expand s c.source).toOption.getD []

theorem expansion_eq (h : Token.expand s c.source = .ok cs) : c.expansion = cs := by
  rw [expansion, h]
  rfl

section Group

variable (h : Flat.expand s ts = .ok group)
include h

theorem expand_source (hc : c ∈ group) :
    Token.expand s c.source = .ok c.expansion ∧ c ∈ c.expansion ∧ c.expansion ⊆ group := by
  have ⟨before, after, hg⟩ := List.append_of_mem hc
  have ⟨x, y, hx, hy, he⟩ := Flat.exists_run (hg ▸ h)
  rw [expansion_eq he, hg]
  refine ⟨he, by simp, ?_⟩
  have := hx.subset
  have := hy.subset
  grind

-- The tokens of the constraints are those of the group, where one that was
-- expanded to two constraints is there twice.
theorem mem_expansions : d ∈ group.flatMap expansion ↔ d ∈ group := by
  rw [List.mem_flatMap]
  constructor
  case mp =>
    intro ⟨c, hc, hd⟩
    exact (expand_source h hc).2.2 hd
  case mpr => exact fun hd => ⟨d, hd, (expand_source h hd).2.1⟩

theorem expand_sources : Flat.expand s (group.map source) = .ok (group.flatMap expansion) :=
  Flat.expand_map fun _ hc => (expand_source h hc).1

end Group
end Constraint

namespace ConstraintSet

-- A set as the expression of the tokens that its constraints come from.
def sources {s : Scheme} (set : ConstraintSet s) : Text :=
  Flat.text <| set.groups.map (·.map Constraint.source)

variable {s : Scheme} {expression : Text} {set : ConstraintSet s} {group : List (Constraint s)}

theorem exists_expand (h : parse s expression = .ok set) (hg : group ∈ set.groups) :
    ∃ ts, Flat.expand s ts = .ok group := by
  have ⟨_, _, hr⟩ := exists_rel_of_mem_right (parse_eq_ok.mp h).2 hg
  have ⟨ts, _, he⟩ := hr.exists_tokens
  exact ⟨ts, he⟩

-- The set of the tokens that the constraints of a set come from.
def retraced (set : ConstraintSet s) : ConstraintSet s where
  groups     := set.groups.map (·.flatMap Constraint.expansion)
  expression := set.sources

theorem parse_sources (h : parse s expression = .ok set) (hn : [] ∉ set.groups) :
    parse s set.sources = .ok set.retraced := by
  apply parse_text
  case hn => simpa using groups_ne_nil h
  case h =>
    simp only [List.forall₂_map_left_iff, List.forall₂_map_right_iff, List.forall₂_same]
    intro group hg
    have ⟨ts, he⟩ := exists_expand h hg
    have hn : group ≠ [] := fun he => hn <| he ▸ hg
    exact ⟨by simpa using hn, Constraint.expand_sources he⟩

theorem check_retraced (h : parse s expression = .ok set) (r : Precedence) :
    set.retraced.check r = set.check r := by
  have group_iff : ∀ group ∈ set.groups,
      (∀ c ∈ group.flatMap Constraint.expansion, c.accepts r) ↔ ∀ c ∈ group, c.accepts r := by
    intro group hg
    have ⟨ts, he⟩ := exists_expand h hg
    simp only [Constraint.mem_expansions he]
  rw [Bool.eq_iff_iff]
  simp only [check, retraced, List.any_map, List.any_eq_true, Function.comp, List.all_eq_true]
  exact exists_congr fun group => and_congr_right fun hg => group_iff group hg

-- The tokens that the constraints of a set come from stand for what they were expanded to.
structure Faithful (set : ConstraintSet s) : Prop where
  -- A token on its own is its constraints, as they stand next to each other in their group.
  token : ∀ before c after, before ++ c :: after ∈ set.groups → ∃ x y, x <:+ before ∧ y <+: after ∧
    parse s c.source = .ok { groups := [x ++ c :: y], expression := c.source }
  -- All of them together accept what the set accepts. An empty group has none.
  whole : [] ∉ set.groups → ∃ set', parse s set.sources = .ok set' ∧ ∀ r, set'.check r = set.check r

theorem faithful_of_parse (h : parse s expression = .ok set) : Faithful set where
  token before c after hg := by
    have ⟨ts, he⟩ := exists_expand h hg
    have ⟨x, y, hx, hy, he⟩ := Flat.exists_run he
    exact ⟨x, y, hx, hy, parse_of_expand he⟩
  whole hn := ⟨set.retraced, parse_sources h hn, check_retraced h⟩

-- The bounds of hyphen ranges, one of which a wildcard gives,
-- and tokens with one constraint and two.
theorem faithful_of_parse_range :
    ∃ set set', parse .calendar "24.1 - 24.x, !=24.03.5 || ^00.0.7-b ~24 || *".toList = .ok set ∧
      [] ∉ set.groups ∧ parse .calendar set.sources = .ok set' ∧
        ∀ r, set'.check r = set.check r := by
  have ⟨set, h, hn⟩ := exists_parse_iff_flat.mpr (show (Flat.parse .calendar
    "24.1 - 24.x, !=24.03.5 || ^00.0.7-b ~24 || *".toList).toOption.any
      (·.groups.all (!·.isEmpty)) by decide)
  have hn : [] ∉ set.groups := fun hm => by simpa using List.all_eq_true.mp hn _ hm
  have ⟨set', hs, hc⟩ := (faithful_of_parse h).whole hn
  exact ⟨set, set', h, hn, hs, hc⟩

end ConstraintSet
end VersionConstraints
