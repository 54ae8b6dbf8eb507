import VersionConstraints.Constraint.Set
import VersionConstraints.Proofs.Sequence
import VersionConstraints.Proofs.Splitting

namespace VersionConstraints

-- An expression read without nesting: clauses between double bars,
-- and in each clause one list of tokens.
namespace Flat

def clauses (expression : Text) : List Text :=
  Text.splitAround ['|', '|'] expression

def tokens (clause : Text) : Except ConstraintError (List Text) :=
  match Text.splitAround Clause.hyphen (Text.trim clause) with
  | [_] => .ok <| Text.runs Clause.separates (Text.trim clause)
  | [lower, upper] =>
    .ok <| Text.runs Clause.separates (['>', '='] ++ Text.trim lower) ++
      Text.runs Clause.separates (['<', '='] ++ Text.trim upper)
  | _ => .error <| .malformed (Text.trim clause) .secondRange

-- The first token that cannot be read decides the error.
def expand (s : Scheme) (tokens : List Text) : Except ConstraintError (List (Constraint s)) := do
  let expansions ← tokens.mapM (Token.expand s)
  return expansions.flatten

def group (s : Scheme) (expression clause : Text) :
    Except ConstraintError (List (Constraint s)) :=
  if (Text.trim clause).isEmpty then .error <| .malformed expression .emptyGroup
  else do expand s (← tokens clause)

def parse (s : Scheme) (expression : Text) : Except ConstraintError (ConstraintSet s) :=
  if (Text.trim expression).isEmpty then .error .empty
  else do
    let groups ← (clauses expression).mapM (group s expression)
    return { groups, expression }

-- A group that stands for a clause holds the expansions of its tokens, one after another.
def Expands (s : Scheme) (clause : Text) (group : List (Constraint s)) : Prop :=
  ∃ tokens expansions, Flat.tokens clause = .ok tokens ∧
    List.Forall₂ (fun token cs => Token.expand s token = .ok cs) tokens expansions ∧
    group = expansions.flatten

-- Whether a token, read on its own, accepts a candidate.
def Accepts (s : Scheme) (token : Text) (candidate : Precedence) : Prop :=
  ∃ cs, Token.expand s token = .ok cs ∧ ∀ c ∈ cs, c.accepts candidate

variable {s : Scheme} {token : Text} {ts us : List Text} {group : List (Constraint s)}

theorem expand_eq_ok :
    expand s ts = .ok group ↔ ∃ expansions,
      List.Forall₂ (fun token cs => Token.expand s token = .ok cs) ts expansions ∧
        group = expansions.flatten := by
  simp only [expand, bind_eq_ok, mapM_eq_ok, pure_eq_ok, eq_comm (a := group)]

theorem expand_singleton : expand s [token] = Token.expand s token := by
  cases h : Token.expand s token <;> simp [expand, h, bind, Except.bind, pure, Except.pure]

theorem expand_append :
    expand s (ts ++ us) = (do return (← expand s ts) ++ (← expand s us)) := by
  simp [expand]

end Flat

namespace Clause

variable {s : Scheme} {a clause side t u : Text} {c : Char}

theorem not_isBlank_of_not_separates (h : separates c = false) : Text.isBlank c = false := by
  rw [separates, Bool.or_eq_false_iff] at h
  exact h.1

theorem not_isInfix_of_not_separates (h : ∀ c ∈ t, separates c = false) : ¬ hyphen <:+: t := by
  intro hi
  have hm : ' ' ∈ t := hi.subset (.head _)
  exact absurd (h _ hm) (by decide)

-- A token is a clause of its own.
theorem expand_token (h : ∀ c ∈ t, separates c = false) : expand s t = Token.expand s t := by
  have ht : Text.trim t = t :=
    Text.trim_of_not_blank fun c hc => not_isBlank_of_not_separates (h c hc)
  have hs : Text.splitAround hyphen t = [t] :=
    Text.splitAround.eq_singleton (not_isInfix_of_not_separates h)
  have ha : ¬ t.any separates := by simpa using h
  rw [expand]
  split
  case h_1 hp => simp [ht, hs] at hp
  case h_2 => rw [ht, dif_neg ha]
  case h_3 hn =>
    rw [ht] at hn
    exact absurd hs (hn t)

theorem expand_runs (hs : Text.splitAround hyphen (Text.trim t) = [u]) (hn : Text.trim t ≠ []) :
    expand s t = Flat.expand s (Text.runs separates (Text.trim t)) := by
  rw [expand]
  split
  case h_1 hp => simp [hs] at hp
  case h_3 hp => exact absurd hs (hp u)
  case h_2 =>
    split
    case isTrue =>
      rw [List.mapM_subtype (g := Token.expand s), List.unattach_attach]
      rfl
      exact fun t ht => expand_token <| Text.not_separates_of_mem_runs ht
    case isFalse ha =>
      have ha : ∀ c ∈ Text.trim t, separates c = false := by simpa using ha
      rw [Text.runs_eq_singleton hn ha, Flat.expand_singleton]

-- A side has lost its hyphens, and the operator in front of it adds none.
theorem expand_side (hn : a ≠ []) (ha : ∀ c ∈ a, Text.isBlank c = false) (h : ¬ hyphen <:+: side) :
    expand s (a ++ Text.trim side) = Flat.expand s (Text.runs separates (a ++ Text.trim side)) := by
  have ht := Text.trim_append_trim hn ha side
  have hn : Text.trim (a ++ Text.trim side) ≠ [] := by
    simp [ht, hn]
  have hi : ¬ hyphen <:+: a ++ Text.trim side := by
    intro hi
    have hs : ' ' ∉ a := fun h => absurd (ha _ h) (by decide)
    exact h <| (Text.isInfix_append_right hs hi).trans (Text.trim_isInfix side)
  have hs : Text.splitAround hyphen (Text.trim (a ++ Text.trim side)) = [a ++ Text.trim side] := by
    rw [ht, Text.splitAround.eq_singleton hi]
  rw [expand_runs hs hn, ht]

theorem expand_eq_flat (hn : Text.trim clause ≠ []) :
    expand s clause = Flat.tokens clause >>= Flat.expand s := by
  rw [Flat.tokens]
  split
  case h_1 hs => exact expand_runs hs hn
  case h_2 lower upper hs =>
    have hi : ∀ side ∈ [lower, upper], ¬ hyphen <:+: side :=
      fun _ h => Text.splitAround.not_isInfix_of_mem (by decide) (hs ▸ h)
    have ha : ∀ c ∈ ['>', '='], Text.isBlank c = false := by simp [Text.isBlank, Text.blanks]
    have hb : ∀ c ∈ ['<', '='], Text.isBlank c = false := by simp [Text.isBlank, Text.blanks]
    have hl := expand_side (s := s) (by simp) ha (hi lower (.head _))
    have hu := expand_side (s := s) (by simp) hb (hi upper (.tail _ (.head _)))
    change expand s clause = Flat.expand s (_ ++ _)
    rw [Flat.expand_append, ← hl, ← hu, expand]
    split
    case h_1 hp =>
      cases hs ▸ hp
      rfl
    case h_2 hp => simp [hs] at hp
    case h_3 hp _ => exact absurd hs (hp lower upper)
  case h_3 h₁ h₂ =>
    rw [expand]
    split
    case h_1 hp => exact absurd hp (h₂ _ _)
    case h_2 hp => exact absurd hp (h₁ _)
    case h_3 => rfl

end Clause

namespace ConstraintSet

variable {s : Scheme} {clause expression : Text} {group : List (Constraint s)}
variable {set : ConstraintSet s}

theorem group_eq_flat (s : Scheme) (expression clause : Text) :
    ConstraintSet.group s expression clause = Flat.group s expression clause := by
  rw [ConstraintSet.group, Flat.group]
  split
  case isTrue => rfl
  case isFalse h => exact Clause.expand_eq_flat (by simpa using h)

theorem parse_eq_flat (s : Scheme) (expression : Text) :
    parse s expression = Flat.parse s expression := by
  have h : ConstraintSet.group s expression = Flat.group s expression :=
    funext <| group_eq_flat s expression
  rw [parse, Flat.parse, Flat.clauses, h]
  rfl

end ConstraintSet

namespace Flat

variable {s : Scheme} {clause expression token : Text} {cs group : List (Constraint s)}
variable {set : ConstraintSet s}

theorem expands_of_group (h : Flat.group s expression clause = .ok group) :
    Expands s clause group := by
  rw [Flat.group] at h
  split at h
  case isTrue => contradiction
  case isFalse =>
    have ⟨tokens, ht, h⟩ := bind_eq_ok.mp h
    have ⟨expansions, he, hg⟩ := expand_eq_ok.mp h
    exact ⟨tokens, expansions, ht, he, hg⟩

theorem expands_of_parse (h : Flat.parse s expression = .ok set) :
    set.expression = expression ∧ List.Forall₂ (Expands s) (clauses expression) set.groups := by
  rw [Flat.parse] at h
  split at h
  case isTrue => contradiction
  case isFalse =>
    have ⟨groups, hg, h⟩ := bind_eq_ok.mp h
    cases pure_eq_ok.mp h
    exact ⟨rfl, (mapM_eq_ok.mp hg).imp fun _ _ => expands_of_group⟩

theorem accepts_iff (h : Token.expand s token = .ok cs) (candidate : Precedence) :
    Accepts s token candidate ↔ ∀ c ∈ cs, c.accepts candidate := by
  simp [Accepts, h]

theorem Expands.accepts_iff (h : Expands s clause group) (candidate : Precedence) :
    (∃ tokens, Flat.tokens clause = .ok tokens ∧ ∀ token ∈ tokens, Accepts s token candidate) ↔
      ∀ c ∈ group, c.accepts candidate := by
  have ⟨tokens, expansions, ht, he, hg⟩ := h
  have hf := forall_mem_iff_of_forall₂ he fun _ _ h => Flat.accepts_iff h candidate
  simp only [ht, hg, Except.ok.injEq, exists_eq_left', hf, List.mem_flatten]
  grind

theorem check_iff (h : Flat.parse s expression = .ok set) (candidate : Precedence) :
    set.check candidate ↔
      ∃ clause ∈ clauses expression, ∃ tokens, Flat.tokens clause = .ok tokens ∧
        ∀ token ∈ tokens, Accepts s token candidate := by
  rw [exists_mem_iff_of_forall₂ (expands_of_parse h).2 fun _ _ h => h.accepts_iff candidate]
  simp [ConstraintSet.check]

end Flat

namespace ConstraintSet

-- Reading an expression clause by clause and side by side comes to reading it flat:
-- 1. the result is the same, up to the error that is met first
-- 2. each clause has a group, with the expansions of its tokens one after another
-- 3. a version is accepted if all tokens of one of the clauses accept it
theorem parse_flat (s : Scheme) (expression : Text) :
    parse s expression = Flat.parse s expression ∧
    ∀ set, parse s expression = .ok set →
      set.expression = expression ∧
      List.Forall₂ (Flat.Expands s) (Flat.clauses expression) set.groups ∧
      ∀ candidate, set.check candidate ↔
        ∃ clause ∈ Flat.clauses expression, ∃ tokens, Flat.tokens clause = .ok tokens ∧
          ∀ token ∈ tokens, Flat.Accepts s token candidate := by
  refine ⟨parse_eq_flat s expression, fun set h => ?_⟩
  rw [parse_eq_flat] at h
  have ⟨he, hg⟩ := Flat.expands_of_parse h
  exact ⟨he, hg, Flat.check_iff h⟩

-- A hyphen range whose upper side goes on, next to a clause without any token.
theorem parse_flat_range :
    ∃ set, parse .semantic "1.1 - 2.x, !=1.5 || ,".toList = .ok set ∧
      List.Forall₂ (Flat.Expands .semantic)
        (Flat.clauses "1.1 - 2.x, !=1.5 || ,".toList) set.groups := by
  have h : (Flat.parse .semantic "1.1 - 2.x, !=1.5 || ,".toList).isOk := by decide
  rw [← parse_eq_flat] at h
  generalize hp : parse .semantic "1.1 - 2.x, !=1.5 || ,".toList = result at h
  match result with
  | .ok set => exact ⟨set, rfl, ((parse_flat _ _).2 set hp).2.1⟩

end ConstraintSet
end VersionConstraints
