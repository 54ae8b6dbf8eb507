import VersionConstraints.Proofs.Appending
import VersionConstraints.Proofs.Expansion

namespace VersionConstraints

namespace Constraint

variable {α : Type} {s : Scheme} {source : Text} {operator o : Operator}
variable {bound lower upper : Version s}
variable {part : Part}

-- One or two constraints that come from the same token.
structure Carries (source : Text) (cs : List (Constraint s)) : Prop where
  length : cs.length = 1 ∨ cs.length = 2
  source : ∀ c ∈ cs, c.source = source

-- A reading that gives nothing but such constraints.
def Carrying (source : Text) (result : Except ConstraintError (List (Constraint s))) : Prop :=
  ∀ cs, result = .ok cs → Carries source cs

namespace Carrying

theorem throw {e : ConstraintError} : Carrying (s := s) source (throw e) :=
  nofun

theorem one : Carrying source (pure [⟨operator, bound, source⟩]) :=
  fun _ h => pure_eq_ok.mp h ▸ ⟨.inl rfl, by simp⟩

theorem two : Carrying source (pure [⟨operator, lower, source⟩, ⟨o, upper, source⟩]) :=
  fun _ h => pure_eq_ok.mp h ▸ ⟨.inr rfl, by simp⟩

theorem bind {x : Except ConstraintError α} {f : α → Except ConstraintError (List (Constraint s))}
    (h : ∀ a, Carrying source (f a)) : Carrying source (x >>= f) := by
  intro cs hc
  have ⟨a, _, ha⟩ := bind_eq_ok.mp hc
  exact h a cs ha

theorem ite {q : Prop} [Decidable q] {x y : Except ConstraintError (List (Constraint s))}
    (pos : Carrying source x) (neg : Carrying source y) : Carrying source (if q then x else y) := by
  split
  case isTrue => exact pos
  case isFalse => exact neg

theorem range : Carrying source (range source lower part) :=
  bind fun _ => two

theorem wildcard : Carrying source (wildcard source o lower part) := by
  cases o
  case equal => exact range
  case notEqual => exact throw
  case greaterOrEqual | less => exact one
  case greater | lessOrEqual => exact bind fun _ => one

end Carrying
end Constraint

namespace Token

-- A token, told from its operator and its body.
structure Written (op : Text) (b : Body) (t : Text) : Prop where
  text     : t = op ++ b.text
  operator : op ∈ operators
  nonempty : b.text ≠ []
  body     : ∀ c ∈ b.text, inBody c

-- The part of its lower bound that a token raises to get an upper bound: a caret and a tilde always
-- do, and an operator in front of a wildcard does unless the lower
-- bound is all that it compares with.
inductive Raises (op : Text) (b : Body) (lower : Precedence) : Part → Prop
  | caret (ho : op = ['^']) : Raises op b lower (Part.ofCaret lower b.front.length)
  | tilde (ho : op = ['~']) : Raises op b lower (Part.ofWritten b.front.length)
  | wildcard (ho : op ∈ [[], ['='], ['=', '='], ['>'], ['<', '=']]) (hw : b.back ≠ []) :
    Raises op b lower (Part.ofWritten b.front.length)

-- The tokens that stand for constraints:
-- 1. wildcards alone, which can be equalled and nothing else
-- 2. a body that starts with a number and stands for a version. A wildcard in it cannot be negated,
--    and where an upper bound is asked for there has to be one above the version.
inductive Language (s : Scheme) (t : Text) : Prop
  | universal {op : Text} {b : Body} (hw : Written op b t) (ho : op ∈ [[], ['='], ['=', '=']])
    (hf : b.front = []) (hb : ∀ n ∈ b.back, Pattern.isWildcard n)
  | bounded {op : Text} {b : Body} {lower : Version s} (hw : Written op b t) (hf : b.front ≠ [])
    (hl : Version.parse s b.concrete = .ok lower) (hn : b.back ≠ [] → op ∉ [['!'], ['!', '=']])
    (hr : ∀ part, Raises op b lower part → (lower : Precedence) < lower.toPrecedence.bump part)

variable {s : Scheme} {op t : Text} {b : Body} {lower : Version s} {o : Operator} {p : Part}
variable {cs : List (Constraint s)}

theorem exists_written_of_expand (h : expand s t = .ok cs) : ∃ op b, Written op b t := by
  rw [expand] at h
  split at h
  case h_1 => contradiction
  case h_2 ht =>
    rw [ofText?, Option.ite_none_right_eq_some] at ht
    simp only [Bool.and_eq_true, List.contains_iff_mem, List.all_eq_true] at ht
    obtain ⟨⟨⟨ho, hn⟩, hb⟩, _⟩ := ht
    rw [← Body.text_ofText (t.dropWhile (!inBody ·))] at hn hb
    refine ⟨_, _, ?text, ho, by simpa using hn, hb⟩
    case text => rw [Body.text_ofText, List.takeWhile_append_dropWhile]

section Raises

variable {lower : Precedence}

theorem raises_iff :
    Raises op b lower p ↔
      op = ['^'] ∧ p = Part.ofCaret lower b.front.length ∨
      op = ['~'] ∧ p = Part.ofWritten b.front.length ∨
      op ∈ [[], ['='], ['=', '='], ['>'], ['<', '=']] ∧ b.back ≠ [] ∧
        p = Part.ofWritten b.front.length := by
  constructor
  case mp =>
    intro h
    cases h
    case caret ho => exact .inl ⟨ho, rfl⟩
    case tilde ho => exact .inr <| .inl ⟨ho, rfl⟩
    case wildcard ho hw => exact .inr <| .inr ⟨ho, hw, rfl⟩
  case mpr =>
    rintro (⟨ho, rfl⟩ | ⟨ho, rfl⟩ | ⟨ho, hw, rfl⟩)
    case inl => exact .caret ho
    case inr.inl => exact .tilde ho
    case inr.inr => exact .wildcard ho hw

theorem raises_operator (ho : Operator.ofText? op = some o) :
    Raises op b lower p ↔
      (o = .equal ∨ o = .greater ∨ o = .lessOrEqual) ∧ b.back ≠ [] ∧
        p = Part.ofWritten b.front.length := by
  have ⟨hm, hc, ht⟩ := Operator.mem_operators ho
  have mem_iff : ∀ op ∈ operators, op ∈ [[], ['='], ['=', '='], ['>'], ['<', '=']] ↔
      Operator.ofText? op ∈ [some .equal, some .greater, some .lessOrEqual] := by decide
  rw [raises_iff, mem_iff op hm, ho]
  simp [hc, ht]

end Raises

theorem closes_iff {lower upper : Precedence} :
    o.Closes lower upper ↔
      o ≠ .notEqual ∧ (o = .equal ∨ o = .greater ∨ o = .lessOrEqual → lower < upper) := by
  cases o <;> simp [Operator.Closes]

theorem bound_bind_isOk {f : Version s → Except ConstraintError (List (Constraint s))} :
    (∃ cs, bound s t >>= f = .ok cs) ↔
      ∃ lower, Version.parse s t = .ok lower ∧ ∃ cs, f lower = .ok cs := by
  simp only [bind_eq_ok, bound_eq_ok]
  grind

theorem range_isOk {source : Text} :
    (∃ cs, Constraint.range source lower p = .ok cs) ↔
      (lower : Precedence) < lower.toPrecedence.bump p := by
  simp [Constraint.range_eq_ok]

namespace Written

variable (hw : Written op b t)
include hw

theorem solid : t ≠ [] ∧ Solid t := by
  rw [hw.text]
  exact ⟨List.append_ne_nil_of_right_ne_nil op hw.nonempty, solid_append hw.operator hw.body⟩

-- Without a number in front the body has to be wildcards alone.
theorem isOk_of_front_nil (hf : b.front = []) :
    (∃ cs, expand s t = .ok cs) ↔
      op ∈ [[], ['='], ['=', '=']] ∧ ∀ n ∈ b.back, Pattern.isWildcard n := by
  have equal_iff : ∀ op ∈ operators, op ∈ [[], ['='], ['=', '=']] ↔
      Operator.ofText? op = some .equal := by decide
  have universal_iff := b.isUniversal_ofText.trans (and_iff_right hf)
  rw [hw.text, expand, ofText?_append hw.operator hw.body, if_neg hw.nonempty, ← universal_iff,
    equal_iff op hw.operator]
  simp only [b.explicit_ofText, hf, List.length_nil, if_true]
  by_cases hu : (Pattern.ofText b.text).isUniversal
  case neg => simp [hu]
  case pos =>
    by_cases ho : Operator.ofText? op = some .equal
    case pos => simp [hu, ho, pure_eq_ok]
    case neg => simp [hu, ho]

-- With a number in front a lower bound has to be found, and a range has to have an end.
theorem isOk_of_front_ne_nil (hf : b.front ≠ []) :
    (∃ cs, expand s t = .ok cs) ↔
      ∃ lower : Version s, Version.parse s b.concrete = .ok lower ∧
        (b.back ≠ [] → op ∉ [['!'], ['!', '=']]) ∧
        ∀ part, Raises op b lower part → (lower : Precedence) < lower.toPrecedence.bump part := by
  have notEqual_iff : ∀ op ∈ operators, op ∈ [['!'], ['!', '=']] ↔
      Operator.ofText? op = some .notEqual := by decide
  rw [hw.text, expand_append hw.body hw.nonempty hw.operator hf, notEqual_iff op hw.operator]
  by_cases hc : op = ['^']
  case pos =>
    subst hc
    rw [if_pos rfl, bound_bind_isOk]
    refine exists_congr fun lower => and_congr_right fun _ => ?_
    have hn : Operator.ofText? ['^'] ≠ some .notEqual := by decide
    simp [range_isOk, raises_iff, hn]
  case neg =>
    rw [if_neg hc]
    by_cases ht : op = ['~']
    case pos =>
      subst ht
      rw [if_pos rfl, bound_bind_isOk]
      refine exists_congr fun lower => and_congr_right fun _ => ?_
      have hn : Operator.ofText? ['~'] ≠ some .notEqual := by decide
      simp [range_isOk, raises_iff, hn]
    case neg =>
      have ⟨o, ho⟩ := Operator.exists_ofText? hw.operator hc ht
      simp only [if_neg ht, ho, raises_operator ho, bound_bind_isOk]
      refine exists_congr fun lower => and_congr_right fun _ => ?_
      by_cases hb : b.back = []
      case pos => simp [hb, pure_eq_ok]
      case neg =>
        simp only [if_neg hb, Constraint.wildcard_isOk, closes_iff]
        grind

end Written

theorem expand_carrying (s : Scheme) (t : Text) : Constraint.Carrying t (expand s t) := by
  unfold expand
  cases ofText? t
  case none => exact .throw
  case some token =>
    refine .ite (.ite .one .throw) <| .ite .throw ?_
    refine .ite (.bind fun _ => .range) <| .ite (.bind fun _ => .range) ?_
    cases Operator.ofText? token.operator
    case none => exact .throw
    case some => exact .ite (.bind fun _ => .wildcard) (.bind fun _ => .one)

-- (1) A token is read if it belongs to the language of tokens.
-- (2) One that is read adds one or two constraints, which carry its text.
-- (3) One that is not read adds nothing.
theorem expand_accepts_language (s : Scheme) (t : Text) :
    ((∃ cs, expand s t = .ok cs) ↔ Language s t) ∧
    (∀ cs, expand s t = .ok cs → Constraint.Carries t cs ∧
      ∀ constraints, (collect s t).run.run constraints = (.ok (), constraints ++ cs)) ∧
    ∀ e, expand s t = .error e →
      ∀ constraints, (collect s t).run.run constraints = (.error e, constraints) := by
  refine ⟨⟨?accepted, ?accepts⟩, fun cs h => ⟨expand_carrying s t cs h, ?reads⟩, fun e h => ?fails⟩
  case accepted =>
    intro h
    have ⟨_, hc⟩ := h
    have ⟨op, b, hw⟩ := exists_written_of_expand hc
    by_cases hf : b.front = []
    case pos =>
      have ⟨ho, hb⟩ := (hw.isOk_of_front_nil hf).mp h
      exact .universal hw ho hf hb
    case neg =>
      have ⟨_, hl, hn, hr⟩ := (hw.isOk_of_front_ne_nil hf).mp h
      exact .bounded hw hf hl hn hr
  case accepts =>
    intro h
    cases h
    case universal hw ho hf hb => exact (hw.isOk_of_front_nil hf).mpr ⟨ho, hb⟩
    case bounded hw hf hl hn hr => exact (hw.isOk_of_front_ne_nil hf).mpr ⟨_, hl, hn, hr⟩
  case reads =>
    intro constraints
    rw [collect_appends, h]
  case fails =>
    intro constraints
    rw [collect_appends, h]

end Token
end VersionConstraints
