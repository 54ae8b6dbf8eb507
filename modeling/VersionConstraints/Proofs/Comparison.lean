import VersionConstraints.Proofs.Expansion

namespace VersionConstraints

def ExactlyOne (p q r : Prop) : Prop :=
  (p ∧ ¬ q ∧ ¬ r) ∨ (¬ p ∧ q ∧ ¬ r) ∨ (¬ p ∧ ¬ q ∧ r)

namespace Operator

-- What the operators have to do with each other, whatever it is that they compare with.
structure Lawful (holds : Operator → Precedence → Prop) : Prop where
  exactlyOne     : ∀ r, ExactlyOne (holds less r) (holds equal r) (holds greater r)
  greaterOrEqual : ∀ r, holds greaterOrEqual r ↔ holds equal r ∨ holds greater r
  lessOrEqual    : ∀ r, holds lessOrEqual r ↔ holds less r ∨ holds equal r
  notEqual       : ∀ r, holds notEqual r ↔ ¬ holds equal r

variable {lower upper : Precedence}

theorem relates_lawful (bound : Precedence) : Lawful fun o r => o.Relates r bound where
  greaterOrEqual _ := le_iff_eq_or_lt.trans <| or_congr_left eq_comm
  lessOrEqual _ := le_iff_lt_or_eq
  notEqual _ := .rfl
  exactlyOne r := by
    obtain h | h | h := lt_trichotomy r bound
    case inl => exact .inl ⟨h, h.ne, h.not_gt⟩
    case inr.inl => exact .inr <| .inl ⟨h.not_lt, h, h.not_gt⟩
    case inr.inr => exact .inr <| .inr ⟨h.not_gt, h.ne', h⟩

theorem closes_of_lt {o : Operator} (h : lower < upper) (ho : o ≠ notEqual) :
    o.Closes lower upper := by
  cases o
  case notEqual => contradiction
  all_goals first | exact h | trivial

-- The range is not empty: a candidate at or above the upper bound is not below the lower one, and
-- one below the lower bound is below the upper one.
theorem spans_lawful (h : lower < upper) : Lawful fun o r => o.Spans lower upper r where
  notEqual r := by simp only [Spans, not_and_or, not_le, not_lt]
  greaterOrEqual r := by
    constructor
    case mp => exact fun hl => (lt_or_ge r upper).imp_left (And.intro hl)
    case mpr => exact Or.rec And.left h.le.trans
  lessOrEqual r := by
    constructor
    case mp => exact fun hu => (lt_or_ge r lower).imp_right (And.intro · hu)
    case mpr => exact Or.rec (lt_trans · h) And.right
  exactlyOne r := by
    obtain hl | hl := lt_or_ge r lower <;> obtain hu | hu := lt_or_ge r upper
    case inl.inl => exact .inl ⟨hl, fun hr => hr.1.not_gt hl, hu.not_ge⟩
    case inl.inr => exact absurd (hl.trans h) hu.not_gt
    case inr.inl => exact .inr <| .inl ⟨hl.not_gt, ⟨hl, hu⟩, hu.not_ge⟩
    case inr.inr => exact .inr <| .inr ⟨hl.not_gt, fun hr => hu.not_gt hr.2, hu⟩

end Operator

namespace Token

variable {s : Scheme} {op : Text} {o : Operator} {b : Body} {lower : Version s}

section Body

variable (hb : ∀ c ∈ b.text, inBody c) (hl : Version.parse s b.concrete = .ok lower)
variable (ho : Operator.ofText? op = some o)
include hb hl ho

theorem operator_ne_nil_solid : op ++ b.text ≠ [] ∧ Solid (op ++ b.text) :=
  ⟨by simp [Body.text_ne_nil_of_parse hl], solid_append (Operator.mem_operators ho).1 hb⟩

variable (hf : b.front ≠ [])
include hf

theorem expand_operator_of_parse :
    expand s (op ++ b.text) =
      if b.back = [] then .ok [⟨o, lower, op ++ b.text⟩]
      else Constraint.wildcard (op ++ b.text) o lower (Part.ofWritten b.front.length) := by
  rw [expand_operator hb (Body.text_ne_nil_of_parse hl) hf ho, bound_eq_ok.mpr hl]
  rfl

-- A body without a wildcard is a version to compare with.
theorem plain_operator (hw : b.back = []) :
    ConstraintSet.Parses s (op ++ b.text) ∧ ∀ r,
      (ConstraintSet.Accepts s (op ++ b.text) r ↔ o.Relates r lower) := by
  have ⟨hn, ht⟩ := operator_ne_nil_solid hb hl ho
  have he := expand_operator_of_parse hb hl ho hf
  rw [if_pos hw] at he
  constructor
  case left => exact (ConstraintSet.parses_token hn ht).mpr ⟨_, he⟩
  case right =>
    intro r
    rw [ConstraintSet.accepts_token hn ht, he]
    exact Constraint.met_pure.trans List.forall_mem_singleton

-- A wildcard stands for a range, and each operator compares with one or both of its bounds.
theorem wildcard_operator (hw : b.back ≠ []) :
    let upper := lower.toPrecedence.bump (Part.ofWritten b.front.length)
    (ConstraintSet.Parses s (op ++ b.text) ↔ o.Closes lower upper) ∧ ∀ r,
      (ConstraintSet.Accepts s (op ++ b.text) r ↔
        o.Closes lower upper ∧ o.Spans lower upper r) := by
  have ⟨hn, ht⟩ := operator_ne_nil_solid hb hl ho
  have he := expand_operator_of_parse hb hl ho hf
  rw [if_neg hw] at he
  constructor
  case left => rw [ConstraintSet.parses_token hn ht, he, Constraint.wildcard_isOk]
  case right =>
    intro r
    rw [ConstraintSet.accepts_token hn ht, he, Constraint.met_wildcard]

end Body

theorem lower_of_parses (hb : ∀ c ∈ b.text, inBody c)
    (h : ConstraintSet.Parses s (['<'] ++ b.text)) :
    b.front ≠ [] ∧ ∃ lower, Version.parse s b.concrete = .ok lower := by
  have hop : ['<'] ∈ operators := by decide
  have ⟨_, he⟩ := (ConstraintSet.parses_token (by simp) (solid_append hop hb)).mp h
  have hn := body_ne_nil_of_expand hop hb he
  have hf : b.front ≠ [] := fun hf => expand_of_front_nil hb hn hf hop (by decide) he
  rw [expand_operator (o := .less) hb hn hf rfl, bind_eq_ok] at he
  have ⟨lower, hl, _⟩ := he
  exact ⟨hf, lower, bound_eq_ok.mp hl⟩

end Token

namespace ConstraintSet

variable {s : Scheme} {body : Text}

-- Every operator in front of the body stands for itself: one that can be read accepts what it has
-- to, and only the negation of a wildcard can not be read.
theorem exists_lawful (hb : ∀ c ∈ body, Token.inBody c) (hless : Parses s (['<'] ++ body))
    (hequal : Parses s (['='] ++ body)) :
    ∃ holds, Operator.Lawful holds ∧ ∀ op o, Operator.ofText? op = some o →
      (o ≠ .notEqual → Parses s (op ++ body)) ∧
      (Parses s (op ++ body) → ∀ r, Accepts s (op ++ body) r ↔ holds o r) := by
  rw [← Body.text_ofText body] at *
  generalize Body.ofText body = b at *
  have ⟨hf, lower, hl⟩ := Token.lower_of_parses hb hless
  by_cases hw : b.back = []
  case pos =>
    refine ⟨_, Operator.relates_lawful lower, fun op o ho => ?_⟩
    have ⟨hp, ha⟩ := Token.plain_operator hb hl ho hf hw
    exact ⟨fun _ => hp, fun _ => ha⟩
  case neg =>
    have h := (Token.wildcard_operator hb hl rfl hf hw).1.mp hequal
    refine ⟨_, Operator.spans_lawful h, fun op o ho => ?_⟩
    have ⟨hp, ha⟩ := Token.wildcard_operator hb hl ho hf hw
    exact ⟨fun hne => hp.mpr <| Operator.closes_of_lt h hne,
      fun hc r => (ha r).trans <| and_iff_right <| hp.mp hc⟩

-- The comparisons with one body are told from each other in the way of those with one version.
structure Comparable (s : Scheme) (body : Text) : Prop where
  exactlyOne     : ∀ r, ExactlyOne (Accepts s (['<'] ++ body) r) (Accepts s (['='] ++ body) r)
    (Accepts s (['>'] ++ body) r)
  greaterOrEqual : Parses s (['>', '='] ++ body) ∧ ∀ r,
    Accepts s (['>', '='] ++ body) r ↔ Accepts s (['='] ++ body) r ∨ Accepts s (['>'] ++ body) r
  lessOrEqual    : Parses s (['<', '='] ++ body) ∧ ∀ r,
    Accepts s (['<', '='] ++ body) r ↔ Accepts s (['<'] ++ body) r ∨ Accepts s (['='] ++ body) r
  equal          : ∀ op ∈ [[], ['=', '=']], Parses s (op ++ body) ∧ ∀ r,
    Accepts s (op ++ body) r ↔ Accepts s (['='] ++ body) r
  notEqual       : ∀ op ∈ [['!'], ['!', '=']], Parses s (op ++ body) → ∀ r,
    Accepts s (op ++ body) r ↔ ¬ Accepts s (['='] ++ body) r

theorem comparable_of_parses (hb : ∀ c ∈ body, Token.inBody c) (hless : Parses s (['<'] ++ body))
    (hequal : Parses s (['='] ++ body)) (hgreater : Parses s (['>'] ++ body)) :
    Comparable s body := by
  have ⟨holds, lawful, h⟩ := exists_lawful hb hless hequal
  have less := (h ['<'] .less rfl).2 hless
  have equal := (h ['='] .equal rfl).2 hequal
  have greater := (h ['>'] .greater rfl).2 hgreater
  constructor
  case exactlyOne =>
    intro r
    rw [less, equal, greater]
    exact lawful.exactlyOne r
  case greaterOrEqual =>
    have ⟨hp, ha⟩ := h ['>', '='] .greaterOrEqual rfl
    have hp := hp nofun
    refine ⟨hp, fun r => ?_⟩
    rw [ha hp, equal, greater]
    exact lawful.greaterOrEqual r
  case lessOrEqual =>
    have ⟨hp, ha⟩ := h ['<', '='] .lessOrEqual rfl
    have hp := hp nofun
    refine ⟨hp, fun r => ?_⟩
    rw [ha hp, less, equal]
    exact lawful.lessOrEqual r
  case equal =>
    intro op ho
    have spelling : ∀ op ∈ [[], ['=', '=']], Operator.ofText? op = some .equal := by decide
    have ⟨hp, ha⟩ := h op .equal (spelling op ho)
    have hp := hp nofun
    exact ⟨hp, fun r => (ha hp r).trans (equal r).symm⟩
  case notEqual =>
    intro op ho hp r
    have spelling : ∀ op ∈ [['!'], ['!', '=']], Operator.ofText? op = some .notEqual := by decide
    rw [(h op .notEqual (spelling op ho)).2 hp, equal]
    exact lawful.notEqual r

-- Each comparison with a wildcard has one bound or two of its own.
theorem comparable_of_parses_wildcard : Comparable .semantic "2.x".toList := by
  have hb : ∀ c ∈ "2.x".toList, Token.inBody c := List.all_eq_true.mp (by decide)
  exact comparable_of_parses hb (by decide +kernel) (by decide +kernel) (by decide +kernel)

end ConstraintSet
end VersionConstraints
