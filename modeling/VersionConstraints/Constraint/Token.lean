import VersionConstraints.Constraint.Pattern
import VersionConstraints.Constraint.Range

namespace VersionConstraints

-- A piece of a clause that holds no blank: an operator, which may be missing, in front of a body.
structure Token where
  operator : Text
  body     : Text
deriving DecidableEq

namespace Token

def operators : List Text :=
  [] :: ['^'] :: ['~'] :: Operator.supported

def inBody (c : Char) : Bool :=
  c.isAlphanum || ['_', '.', '+', '*', '-'].contains c

-- No operator holds a character that a body can hold, so the body starts at the first of these.
def ofText? (t : Text) : Option Token :=
  let token : Token := ⟨t.takeWhile (!inBody ·), t.dropWhile (!inBody ·)⟩
  if operators.contains token.operator && !token.body.isEmpty && token.body.all inBody then
    some token
  else
    none

def bound (s : Scheme) (t : Text) : Except ConstraintError (Version s) :=
  (Version.parse s t).mapError .version

-- The constraints that a token stands for, of which there are one or two.
def expand (s : Scheme) (t : Text) : Except ConstraintError (List (Constraint s)) :=
  match ofText? t with
  | none => throw (.invalidToken t)
  | some token =>
    let pattern := Pattern.ofText token.body
    let written := pattern.explicit.length
    if pattern.isUniversal then
      if Operator.ofText? token.operator = some .equal then return Constraint.universal t
      else throw (.malformed t (.wildcardOperand token.operator))
    else if written = 0 then
      throw (.malformed t .wildcardMajor)
    else if token.operator = ['^'] then do
      let lower ← bound s pattern.concrete
      Constraint.range t lower (Part.ofCaret lower written)
    else if token.operator = ['~'] then do
      let lower ← bound s pattern.concrete
      Constraint.range t lower (Part.ofWritten written)
    else
      match Operator.ofText? token.operator with
      | none => throw (.invalidOperator token.operator)
      | some operator =>
        if pattern.hasWildcard then do
          let lower ← bound s pattern.concrete
          Constraint.wildcard t operator lower (Part.ofWritten written)
        else
          return [⟨operator, ← bound s token.body, t⟩]

end Token
end VersionConstraints
