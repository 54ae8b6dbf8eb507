import VersionConstraints.Constraint.Set
import VersionConstraints.Version.Basic

namespace VersionConstraints.Query

-- Questions about texts that are read loosely as semantic versions.
-- What cannot be read meets nothing.

def version? (t : Text) : Option (Version .semantic) :=
  (Version.parse .semantic t).toOption

def constraints (expression : Text) : Except ConstraintError (ConstraintSet .semantic) :=
  ConstraintSet.parse .semantic expression

def satisfiesSet (version : Text) (set : ConstraintSet .semantic) : Bool :=
  (set.checkText version).toOption.getD false

def satisfies (version expression : Text) : Bool :=
  match version? version, constraints expression with
  | some v, .ok set => set.check v
  | _, _ => false

def satisfiedBy (versions : List Text) (expression : Text) : List Text :=
  match constraints expression with
  | .ok set => versions.filter (satisfiesSet · set)
  | .error _ => []

-- Compares two version texts under an operator.
def compare (left operator right : Text) : Bool :=
  match Operator.ofText? operator, version? left, version? right with
  | some o, some v, some w => o.accepts (Ord.compare v.toPrecedence w.toPrecedence)
  | _, _, _ => false

def greater (left right : Text) : Bool :=
  compare left ['>'] right

def greaterOrEqual (left right : Text) : Bool :=
  compare left ['>', '='] right

def less (left right : Text) : Bool :=
  compare left ['<'] right

def lessOrEqual (left right : Text) : Bool :=
  compare left ['<', '='] right

def equal (left right : Text) : Bool :=
  compare left ['=', '='] right

def notEqual (left right : Text) : Bool :=
  compare left ['!', '='] right

-- The texts that can be read, in ascending order. Texts of one rank stay in the order given.
def sort (versions : List Text) : List Text :=
  (Version.sort (versions.filterMap version?)).map (·.spelling)

def rsort (versions : List Text) : List Text :=
  (Version.rsort (versions.filterMap version?)).map (·.spelling)

end VersionConstraints.Query
