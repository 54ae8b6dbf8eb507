import VersionConstraints.Constraint.Clause

namespace VersionConstraints

-- An expression, read. A version has to meet all constraints of one of the groups.
structure ConstraintSet (s : Scheme) where
  groups     : List (List (Constraint s))
  expression : Text

namespace ConstraintSet

variable {s : Scheme}

def group (s : Scheme) (expression clause : Text) :
    Except ConstraintError (List (Constraint s)) :=
  if (Text.trim clause).isEmpty then throw (.malformed expression .emptyGroup)
  else Clause.expand s clause

-- One group for each clause between double bars.
def parse (s : Scheme) (expression : Text) : Except ConstraintError (ConstraintSet s) :=
  if (Text.trim expression).isEmpty then throw .empty
  else do
    let groups ← (Text.splitAround ['|', '|'] expression).mapM (group s expression)
    return { groups, expression }

def check (set : ConstraintSet s) (candidate : Precedence) : Bool :=
  set.groups.any fun group => group.all fun c => c.accepts candidate

-- Checks a text that is read in the scheme of the set.
def checkText (set : ConstraintSet s) (t : Text) : Except VersionError Bool := do
  return set.check (← Version.parse s t)

def groupText : List (Constraint s) → Text
  | [c] => c.text
  | cs => '[' :: [' '].intercalate (cs.map (·.text)) ++ [']']

def text (set : ConstraintSet s) : Text :=
  [' ', '|', '|', ' '].intercalate (set.groups.map groupText)

end ConstraintSet
end VersionConstraints
