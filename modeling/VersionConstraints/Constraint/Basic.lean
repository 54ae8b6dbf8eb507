import VersionConstraints.Version.Basic

namespace VersionConstraints

inductive Operator
  | equal
  | notEqual
  | greater
  | greaterOrEqual
  | less
  | lessOrEqual
deriving DecidableEq

namespace Operator

def symbol : Operator → Text
  | equal          => ['=']
  | notEqual       => ['!', '=']
  | greater        => ['>']
  | greaterOrEqual => ['>', '=']
  | less           => ['<']
  | lessOrEqual    => ['<', '=']

-- Equality and its negation have a second spelling each.
def spellings : List (Text × Operator) :=
  [(['='], equal), (['=', '='], equal), (['!', '='], notEqual), (['!'], notEqual), (['>'], greater),
   (['>', '='], greaterOrEqual), (['<'], less), (['<', '='], lessOrEqual)]

def supported : List Text :=
  spellings.map (·.1)

-- Where no operator is written, equality is meant.
def ofText? : Text → Option Operator
  | [] => some equal
  | t => spellings.lookup t

-- Whether the order of a candidate against a bound is the one that is asked for.
def accepts : Operator → Ordering → Bool
  | equal          => Ordering.isEq
  | notEqual       => Ordering.isNe
  | greater        => Ordering.isGT
  | greaterOrEqual => Ordering.isGE
  | less           => Ordering.isLT
  | lessOrEqual    => Ordering.isLE

theorem ofText?_symbol (o : Operator) : ofText? o.symbol = some o := by
  cases o <;> decide

end Operator

structure Constraint (s : Scheme) where
  operator : Operator
  bound    : Version s
  -- The token that the constraint was written or expanded from.
  source   : Text

namespace Constraint

variable {s : Scheme}

-- The candidate may be a version of any scheme.
def accepts (c : Constraint s) (candidate : Precedence) : Bool :=
  c.operator.accepts (compare candidate c.bound.toPrecedence)

def text (c : Constraint s) : Text :=
  c.operator.symbol ++ ' ' :: c.bound.text

end Constraint
end VersionConstraints
