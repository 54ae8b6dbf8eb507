import VersionConstraints.Constraint.Basic
import VersionConstraints.Error
import VersionConstraints.Version.Bump

namespace VersionConstraints

namespace Part

-- The part in which a caret lets versions differ: the one after which all are free, which is the
-- leftmost that is not zero, or else the last that is written.
def ofCaret (lower : Precedence) (written : Nat) : Part :=
  if lower.major ≠ 0 then major
  else if lower.minor ≠ 0 then minor
  else if lower.patch ≠ 0 then patch
  else if written ≤ 1 then major
  else if written = 2 then minor
  else patch

-- A tilde or a wildcard lets versions differ after the minor number if that is written,
-- and after the major number otherwise.
def ofWritten (written : Nat) : Part :=
  if written ≤ 1 then major else minor

end Part

namespace Constraint

variable {s : Scheme}

-- The bump of a lower bound closes a range only if it lies above the bound. It does not where the
-- number to be raised is the largest there is.
def ceiling (source : Text) (lower : Version s) (part : Part) :
    Except ConstraintError (Version s) :=
  let upper := lower.bump part
  if lower.toPrecedence < upper.toPrecedence then .ok upper
  else .error (.malformed source (.unbounded lower.text))

def range (source : Text) (lower : Version s) (part : Part) :
    Except ConstraintError (List (Constraint s)) := do
  let upper ← ceiling source lower part
  return [⟨.greaterOrEqual, lower, source⟩, ⟨.less, upper, source⟩]

-- An operator in front of a wildcard compares with the whole range that the wildcard stands for.
def wildcard (source : Text) (operator : Operator) (lower : Version s) (part : Part) :
    Except ConstraintError (List (Constraint s)) :=
  match operator with
  | .equal => range source lower part
  | .greaterOrEqual => return [⟨.greaterOrEqual, lower, source⟩]
  | .less => return [⟨.less, lower, source⟩]
  | .greater => return [⟨.greaterOrEqual, ← ceiling source lower part, source⟩]
  | .lessOrEqual => return [⟨.less, ← ceiling source lower part, source⟩]
  | .notEqual => throw (.malformed source .negatedWildcard)

-- Every version ranks at or above the bottom.
def universal (source : Text) : List (Constraint s) :=
  [⟨.greaterOrEqual, Version.bottom s, source⟩]

end Constraint
end VersionConstraints
