import VersionConstraints.Proofs.CalendarReading
import VersionConstraints.Proofs.Expansion

namespace VersionConstraints

-- Whatever a computation fails with has a property.
def Refuses {ε α : Type _} (p : ε → Prop) (x : Except ε α) : Prop :=
  ∀ e, x = .error e → p e

namespace Refuses

variable {ε δ α β : Type _} {p : ε → Prop} {x y : Except ε α}

theorem ok (a : α) : Refuses p (.ok a) :=
  nofun

theorem error {e : ε} (h : p e) : Refuses (α := α) p (.error e) := by
  rintro _ ⟨⟩
  exact h

theorem bind {f : α → Except ε β} (h : Refuses p x) (hf : ∀ a, x = .ok a → Refuses p (f a)) :
    Refuses p (x >>= f) := by
  intro e he
  cases bind_eq_error.mp he
  case inl he => exact h e he
  case inr he =>
    have ⟨a, ha, he⟩ := he
    exact hf a ha e he

theorem ite {q : Prop} [Decidable q] (pos : q → Refuses p x) (neg : ¬ q → Refuses p y) :
    Refuses p (if q then x else y) := by
  split
  case isTrue h => exact pos h
  case isFalse h => exact neg h

theorem mapM {f : β → Except ε α} {bs : List β} (h : ∀ b ∈ bs, Refuses p (f b)) :
    Refuses p (bs.mapM f) := by
  induction bs
  case nil => exact ok []
  case cons b bs hi =>
    have ⟨hb, hbs⟩ := List.forall_mem_cons.mp h
    rw [List.mapM_cons]
    exact bind hb fun _ _ => bind (hi hbs) fun _ _ => ok _

end Refuses

-- What the loose reading of a scheme can complain about. Only a semantic
-- version has room for a number that is too large.
def Scheme.Reports : Scheme → VersionError → Prop
  | semantic, .invalidSemantic _ => True
  | semantic, .segmentOverflow _ => True
  | calendar, .invalidCalendar _ => True
  | _, .leadingZero _ => True
  | _, _ => False

theorem Version.refuses_parse (s : Scheme) (t : Text) : Refuses s.Reports (parse s t) := by
  intro e h
  have h := parse_eq_iff_reads.mp h
  cases s
  case semantic => cases h <;> trivial
  case calendar => cases reads_calendar_iff.mp h <;> trivial

namespace Token

-- Why a token is refused: it is none, its parts do not go together,
-- or a version in it can not be read.
inductive Refused (s : Scheme) (t : Text) : ConstraintError → Prop
  | invalid : Refused s t (.invalidToken t)
  | malformed (fault : Fault) : Refused s t (.malformed t fault)
  | version {bound : Text} {e : VersionError} (h : Version.parse s bound = .error e) :
    Refused s t (.version e)

variable {s : Scheme} {t bound : Text} {token : Token}

theorem operator_mem (h : ofText? t = some token) : token.operator ∈ operators := by
  rw [ofText?, Option.ite_none_right_eq_some] at h
  simp only [Bool.and_eq_true, List.contains_iff_mem] at h
  obtain ⟨⟨⟨ho, _⟩, _⟩, ht⟩ := h
  exact Option.some.inj ht ▸ ho

theorem refuses_bound : Refuses (Refused s t) (Token.bound s bound) := by
  intro e h
  have ⟨_, h, he⟩ := mapError_eq_error.mp h
  exact he ▸ .version h

end Token

namespace Constraint

variable {s : Scheme} {source : Text} {lower : Version s} {part : Part} {o : Operator}

theorem refuses_ceiling : Refuses (Token.Refused s source) (ceiling source lower part) :=
  .ite (fun _ => .ok _) fun _ => .error <| .malformed _

theorem refuses_range : Refuses (Token.Refused s source) (range source lower part) :=
  refuses_ceiling.bind fun _ _ => .ok _

theorem refuses_wildcard : Refuses (Token.Refused s source) (wildcard source o lower part) := by
  cases o
  case equal => exact refuses_range
  case notEqual => exact .error <| .malformed _
  case greaterOrEqual | less => exact .ok _
  case greater | lessOrEqual => exact refuses_ceiling.bind fun _ _ => .ok _

end Constraint

-- A caret and a tilde are taken before a comparison is looked for,
-- and all other operators of a token are comparisons.
theorem Token.refuses_expand (s : Scheme) (t : Text) : Refuses (Refused s t) (expand s t) := by
  unfold expand
  split
  case h_1 => exact .error .invalid
  case h_2 token hm =>
    apply Refuses.ite
    case pos => exact fun _ => .ite (fun _ => .ok _) fun _ => .error <| .malformed _
    case neg =>
      refine fun _ => .ite (fun _ => .error <| .malformed _) fun _ => ?_
      refine .ite (fun _ => refuses_bound.bind fun _ _ => Constraint.refuses_range) fun hc => ?_
      refine .ite (fun _ => refuses_bound.bind fun _ _ => Constraint.refuses_range) fun ht => ?_
      have ⟨o, ho⟩ := Operator.exists_ofText? (operator_mem hm) hc ht
      simp only [ho]
      refine .ite (fun _ => refuses_bound.bind fun _ _ => Constraint.refuses_wildcard) fun _ => ?_
      exact refuses_bound.bind fun _ _ => .ok _

namespace ConstraintSet

-- Why an expression is refused: it is blank, a clause in it is blank, a clause is a range of more
-- than two sides, or a token is refused.
inductive Refused (s : Scheme) (expression : Text) : ConstraintError → Prop
  | empty (h : ∀ c ∈ expression, Text.isBlank c) : Refused s expression .empty
  | emptyGroup {clause : Text} (hc : clause ∈ Flat.clauses expression)
    (h : ∀ c ∈ clause, Text.isBlank c) :
    Refused s expression (.malformed expression .emptyGroup)
  | secondRange {clause : Text} (hc : clause ∈ Flat.clauses expression)
    (h : 2 < (Text.splitAround Clause.hyphen <| Text.trim clause).length) :
    Refused s expression (.malformed (Text.trim clause) .secondRange)
  | token {clause token : Text} {tokens : List Text} {e : ConstraintError}
    (hc : clause ∈ Flat.clauses expression) (ht : Flat.tokens clause = .ok tokens)
    (hm : token ∈ tokens)
    (h : Token.Refused s token e) : Refused s expression e

variable {s : Scheme} {expression clause : Text}

theorem refuses_tokens (hc : clause ∈ Flat.clauses expression) :
    Refuses (Refused s expression) (Flat.tokens clause) := by
  unfold Flat.tokens
  split
  case h_1 | h_2 => exact .ok _
  case h_3 h₁ h₂ =>
    refine .error <| .secondRange hc ?_
    match hs : Text.splitAround Clause.hyphen (Text.trim clause) with
    | [] => exact absurd hs <| Text.splitAround.ne_nil _ _
    | [p] => exact absurd hs <| h₁ p
    | [p, q] => exact absurd hs <| h₂ p q
    | _ :: _ :: _ :: _ => simp

theorem refuses_parse (s : Scheme) (expression : Text) :
    Refuses (Refused s expression) (parse s expression) := by
  rw [parse_eq_flat]
  apply Refuses.ite
  case pos => exact fun h => .error <| .empty <| Text.trim_eq_nil_iff.mp <| List.isEmpty_iff.mp h
  case neg =>
    refine fun _ => .bind (.mapM fun clause hc => ?_) fun _ _ => .ok _
    apply Refuses.ite
    case pos =>
      exact fun h => .error <| .emptyGroup hc <| Text.trim_eq_nil_iff.mp <| List.isEmpty_iff.mp h
    case neg =>
      refine fun _ => (refuses_tokens hc).bind fun tokens ht =>
        .bind (.mapM fun token hm => ?_) fun _ _ => .ok _
      exact fun e h => .token hc ht hm <| Token.refuses_expand s token e h

-- The error of a version in an expression is one of its scheme.
theorem reports_of_parse {e : VersionError} (h : parse s expression = .error (.version e)) :
    s.Reports e := by
  cases refuses_parse s expression _ h
  case token h =>
    cases h
    case version h => exact Version.refuses_parse s _ _ h

-- Some errors never come out of an expression:
-- 1. the operator of a token is always one that can be read
-- 2. the version of a token has a prerelease and metadata that can be taken apart
-- 3. the other scheme is never complained about, and the numbers of a calendar version always fit
-- 4. an expression is called empty only where it is blank, and then it always is
theorem parse_errors_of_scheme (expression : Text) :
    (∀ s operator, parse s expression ≠ .error (.invalidOperator operator)) ∧
    (∀ s text, parse s expression ≠ .error (.version (.invalidPrerelease text)) ∧
      parse s expression ≠ .error (.version (.invalidMetadata text))) ∧
    (∀ text, parse .semantic expression ≠ .error (.version (.invalidCalendar text))) ∧
    (∀ text, parse .calendar expression ≠ .error (.version (.invalidSemantic text)) ∧
      parse .calendar expression ≠ .error (.version (.segmentOverflow text))) ∧
    ∀ s, parse s expression = .error .empty ↔ ∀ c ∈ expression, Text.isBlank c := by
  refine ⟨?operator, ?parts, fun _ => reports_of_parse,
    fun _ => ⟨reports_of_parse, reports_of_parse⟩, ?empty⟩
  case operator =>
    intro s _ h
    cases refuses_parse s expression _ h
    case token h => contradiction
  case parts =>
    intro s _
    cases s <;> exact ⟨reports_of_parse, reports_of_parse⟩
  case empty =>
    intro s
    constructor
    case mp =>
      intro h
      cases refuses_parse s expression _ h
      case empty h => exact h
      case token h => contradiction
    case mpr =>
      intro h
      exact if_pos <| List.isEmpty_iff.mpr <| Text.trim_eq_nil_iff.mpr h

end ConstraintSet
end VersionConstraints
