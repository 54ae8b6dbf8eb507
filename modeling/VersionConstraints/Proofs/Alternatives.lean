import VersionConstraints.Proofs.Tokens

namespace VersionConstraints

theorem Text.intercalate_append {sep : Text} {xs ys : List Text} (hx : xs ≠ []) (hy : ys ≠ []) :
    sep.intercalate (xs ++ ys) = sep.intercalate xs ++ sep ++ sep.intercalate ys := by
  induction xs
  case nil => contradiction
  case cons x xs hi =>
    by_cases hn : xs = []
    case pos =>
      rw [hn, List.singleton_append, List.intercalate_cons_of_ne_nil hy, List.intercalate_singleton]
    case neg =>
      have hn' : xs ++ ys ≠ [] := List.append_ne_nil_of_left_ne_nil hn ys
      rw [List.cons_append, List.intercalate_cons_of_ne_nil hn', hi hn,
        List.intercalate_cons_of_ne_nil hn]
      simp only [List.append_assoc]

namespace ConstraintSet

-- Two expressions in one.
def either (a b : Text) : Text :=
  a ++ (['|', '|'] ++ b)

variable {s : Scheme} {a b : Text} {set left right : ConstraintSet s}

-- Where the bars between two texts are not met as they stand, one of them is left over at the end
-- of the first text, and there is none or another one at the beginning of a clause.
-- Neither can be read.
theorem clauses_either (h : Parses s (either a b) ∨ Parses s a) :
    Flat.clauses (either a b) = Flat.clauses a ++ Flat.clauses b := by
  cases Text.splitAround.append_twice '|' a b
  case inl he => exact he
  case inr hm =>
    have ⟨⟨p, hp, hpb⟩, q, hq, hqb⟩ := hm
    obtain ⟨set, h⟩ | ⟨set, h⟩ := h
    case inl =>
      have ⟨_, _, hr⟩ := exists_rel_of_mem_left (parse_eq_ok.mp h).2 (List.mem_of_mem_tail hq)
      cases hqb
      case inl hn => exact absurd (congrArg Text.trim hn) hr.nonblank
      case inr hb => exact absurd hb hr.not_bar
    case inr =>
      have ⟨_, _, hr⟩ := exists_rel_of_mem_left (parse_eq_ok.mp h).2 hp
      exact absurd hpb hr.not_bar

theorem parse_either_eq_ok :
    parse s (either a b) = .ok set ↔ set.expression = either a b ∧ ∃ left right,
      parse s a = .ok left ∧ parse s b = .ok right ∧ set.groups = left.groups ++ right.groups := by
  constructor
  case mp =>
    intro h
    have ⟨he, hc⟩ := parse_eq_ok.mp h
    rw [clauses_either (.inl ⟨set, h⟩), forall₂_append_left_iff] at hc
    have ⟨front, back, hf, hb, hg⟩ := hc
    exact ⟨he, ⟨front, a⟩, ⟨back, b⟩, parse_eq_ok.mpr ⟨rfl, hf⟩, parse_eq_ok.mpr ⟨rfl, hb⟩, hg⟩
  case mpr =>
    intro ⟨he, left, right, hl, hr, hg⟩
    refine parse_eq_ok.mpr ⟨he, ?_⟩
    rw [clauses_either (.inr ⟨left, hl⟩), hg]
    exact List.rel_append (parse_eq_ok.mp hl).2 (parse_eq_ok.mp hr).2

theorem parses_either : Parses s (either a b) ↔ Parses s a ∧ Parses s b := by
  constructor
  case mp =>
    intro ⟨set, h⟩
    have ⟨_, left, right, hl, hr, _⟩ := parse_either_eq_ok.mp h
    exact ⟨⟨left, hl⟩, right, hr⟩
  case mpr =>
    intro ⟨⟨left, hl⟩, right, hr⟩
    let set : ConstraintSet s := ⟨left.groups ++ right.groups, either a b⟩
    exact ⟨set, parse_either_eq_ok.mpr ⟨rfl, left, right, hl, hr, rfl⟩⟩

-- A set that has the groups of two others, one after the other.
structure Unites (set left right : ConstraintSet s) : Prop where
  groups : set.groups = left.groups ++ right.groups
  check  : ∀ r, set.check r = (left.check r || right.check r)
  text   : set.text = left.text ++ [' ', '|', '|', ' '] ++ right.text

theorem Unites.of_groups (hl : left.groups ≠ []) (hr : right.groups ≠ [])
    (h : set.groups = left.groups ++ right.groups) : Unites set left right where
  groups := h
  check r := by rw [ConstraintSet.check, h, List.any_append]; rfl
  text := by
    rw [ConstraintSet.text, h, List.map_append,
      Text.intercalate_append (by simpa using hl) (by simpa using hr)]
    rfl

-- Double bars stand for an alternative, whatever stands at their sides:
-- 1. both sides have to be readable on their own
-- 2. the set has the groups of the one and then those of the other, accepts what one of them
--    accepts, and is written as both of them are
theorem parse_either (s : Scheme) (a b : Text) :
    (Parses s (either a b) ↔ Parses s a ∧ Parses s b) ∧
    ∀ set left right, parse s (either a b) = .ok set → parse s a = .ok left →
      parse s b = .ok right → Unites set left right := by
  refine ⟨parses_either, fun set left right h hl hr => ?_⟩
  have ⟨_, left', right', hl', hr', hg⟩ := parse_either_eq_ok.mp h
  cases hl.symm.trans hl'
  cases hr.symm.trans hr'
  exact .of_groups (groups_ne_nil hl) (groups_ne_nil hr) hg

-- A range and a clause without any token on the one side, and several tokens on the other.
theorem parse_either_range :
    ∃ set left right, parse .semantic (either "1.1 - 2.x || ,".toList " !=3, <4".toList) = .ok set ∧
      parse .semantic "1.1 - 2.x || ,".toList = .ok left ∧
      parse .semantic " !=3, <4".toList = .ok right ∧ Unites set left right := by
  have hl : Parses .semantic "1.1 - 2.x || ,".toList := parses_iff_flat.mpr (by decide)
  have hr : Parses .semantic " !=3, <4".toList := parses_iff_flat.mpr (by decide)
  have ⟨set, h⟩ := (parse_either .semantic _ _).1.mpr ⟨hl, hr⟩
  have ⟨left, hl⟩ := hl
  have ⟨right, hr⟩ := hr
  exact ⟨set, left, right, h, hl, hr, (parse_either .semantic _ _).2 set left right h hl hr⟩

end ConstraintSet
end VersionConstraints
