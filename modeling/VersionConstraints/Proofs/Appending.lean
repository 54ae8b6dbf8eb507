import VersionConstraints.Constraint.Token

namespace VersionConstraints

-- A reading that adds to the constraints read so far.
-- What has been added stays where a later step fails.
abbrev Collector (s : Scheme) :=
  ExceptT ConstraintError (StateM (List (Constraint s)))

namespace Constraint

variable {s : Scheme}

def push (operator : Operator) (bound : Version s) (source : Text) : Collector s Unit :=
  modify (· ++ [⟨operator, bound, source⟩])

def pushRange (source : Text) (lower : Version s) (part : Part) : Collector s Unit := do
  let upper ← ceiling source lower part
  push .greaterOrEqual lower source
  push .less upper source

def pushWildcard (source : Text) (operator : Operator) (lower : Version s) (part : Part) :
    Collector s Unit := do
  match operator with
  | .equal => pushRange source lower part
  | .greaterOrEqual => push .greaterOrEqual lower source
  | .less => push .less lower source
  | .greater => push .greaterOrEqual (← ceiling source lower part) source
  | .lessOrEqual => push .less (← ceiling source lower part) source
  | .notEqual => throw (.malformed source .negatedWildcard)

end Constraint

namespace Token

variable {s : Scheme}

-- A token read into a list that may already hold the constraints of other tokens.
def collect (s : Scheme) (t : Text) : Collector s Unit :=
  match ofText? t with
  | none => throw (.invalidToken t)
  | some token =>
    let pattern := Pattern.ofText token.body
    let written := pattern.explicit.length
    if pattern.isUniversal then
      if Operator.ofText? token.operator = some .equal then
        Constraint.push .greaterOrEqual (Version.bottom s) t
      else throw (.malformed t (.wildcardOperand token.operator))
    else if written = 0 then
      throw (.malformed t .wildcardMajor)
    else if token.operator = ['^'] then do
      let lower ← bound s pattern.concrete
      Constraint.pushRange t lower (Part.ofCaret lower written)
    else if token.operator = ['~'] then do
      let lower ← bound s pattern.concrete
      Constraint.pushRange t lower (Part.ofWritten written)
    else
      match Operator.ofText? token.operator with
      | none => throw (.invalidOperator token.operator)
      | some operator =>
        if pattern.hasWildcard then do
          let lower ← bound s pattern.concrete
          Constraint.pushWildcard t operator lower (Part.ofWritten written)
        else do
          Constraint.push operator (← bound s token.body) t

end Token

-- A reading that adds all that a result stands for, or nothing.
def Collector.Appends {s : Scheme} (x : Collector s Unit)
    (result : Except ConstraintError (List (Constraint s))) : Prop :=
  ∀ constraints, x.run.run constraints =
    match result with
    | .ok cs => (.ok (), constraints ++ cs)
    | .error e => (.error e, constraints)

namespace Collector.Appends

variable {α : Type} {s : Scheme} {source : Text} {lower upper : Version s} {part : Part}
variable {o p : Operator}
variable {x y : Collector s Unit} {cs ds : Except ConstraintError (List (Constraint s))}

theorem throw (e : ConstraintError) : Appends (s := s) (throw e) (throw e) :=
  fun _ => rfl

theorem push : (Constraint.push o lower source).Appends (pure [⟨o, lower, source⟩]) :=
  fun _ => rfl

-- A step that adds nothing of its own comes first.
theorem bind {r : Except ConstraintError α} {f : α → Collector s Unit}
    {g : α → Except ConstraintError (List (Constraint s))} (h : ∀ a, (f a).Appends (g a)) :
    Appends (liftM r >>= f) (r >>= g) := by
  cases r
  case error e => exact fun _ => rfl
  case ok a => exact h a

theorem ite {q : Prop} [Decidable q] (pos : q → x.Appends cs) (neg : ¬ q → y.Appends ds) :
    Appends (if q then x else y) (if q then cs else ds) := by
  by_cases h : q
  case pos => simpa only [if_pos h] using pos h
  case neg => simpa only [if_neg h] using neg h

theorem pushRange :
    (Constraint.pushRange source lower part).Appends (Constraint.range source lower part) := by
  apply bind
  intro upper constraints
  change (Except.ok (), (constraints ++ [_]) ++ [_]) = (Except.ok (), constraints ++ [_, _])
  rw [List.append_assoc]
  rfl

theorem pushWildcard :
    (Constraint.pushWildcard source o lower part).Appends
      (Constraint.wildcard source o lower part) := by
  cases o
  case equal => exact pushRange
  case notEqual => exact throw _
  case greaterOrEqual | less => exact push
  case greater | lessOrEqual => exact bind fun _ => push

end Collector.Appends

-- All that can fail comes before the first constraint is added.
theorem Token.collect_appends (s : Scheme) (t : Text) : (collect s t).Appends (expand s t) := by
  unfold collect expand
  cases ofText? t
  case none => exact .throw _
  case some token =>
    apply Collector.Appends.ite
    case pos => exact fun _ => .ite (fun _ => .push) fun _ => .throw _
    case neg =>
      refine fun _ => .ite (fun _ => .throw _) fun _ => ?_
      apply Collector.Appends.ite
      case pos => exact fun _ => .bind fun _ => .pushRange
      case neg =>
        refine fun _ => .ite (fun _ => .bind fun _ => .pushRange) fun _ => ?_
        cases Operator.ofText? token.operator
        case none => exact .throw _
        case some =>
          exact .ite (fun _ => .bind fun _ => .pushWildcard) fun _ => .bind fun _ => .push

end VersionConstraints
