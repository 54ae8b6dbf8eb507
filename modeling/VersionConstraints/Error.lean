import VersionConstraints.Text.Basic

namespace VersionConstraints

-- Why a text is no version. Each carries the text at fault.
inductive VersionError
  | invalidSemantic (text : Text)
  | invalidCalendar (text : Text)
  | leadingZero (prerelease : Text)
  | invalidPrerelease (prerelease : Text)
  | invalidMetadata (metadata : Text)
  | segmentOverflow (digits : Text)
deriving DecidableEq

namespace VersionError

def message : VersionError → Text
  | invalidSemantic t => "Invalid semantic version ".toList ++ t.quoted
  | invalidCalendar t => "Invalid calendar version ".toList ++ t.quoted
  | leadingZero t => "Version segment starts with 0 in ".toList ++ t.quoted
  | invalidPrerelease t => "Invalid prerelease string ".toList ++ t.quoted
  | invalidMetadata t => "Invalid metadata string ".toList ++ t.quoted
  | segmentOverflow t => "Version segment ".toList ++ t.quoted ++ " is out of range".toList

-- What lies behind the error, where the message leaves it open.
def cause? : VersionError → Option Text
  | segmentOverflow _ => some "number too large to fit in target type".toList
  | _ => none

end VersionError

-- What is wrong with a constraint whose parts can be told apart.
inductive Fault
  | secondRange
  | emptyGroup
  | wildcardOperand (operator : Text)
  | wildcardMajor
  | negatedWildcard
  -- The lower bound has nothing above it that could close the range.
  | unbounded (lower : Text)
deriving DecidableEq

namespace Fault

def message : Fault → Text
  | secondRange => "more than one hyphen range separator".toList
  | emptyGroup => "empty || group".toList
  | wildcardOperand o => "operator ".toList ++ o ++ " cannot apply to a wildcard".toList
  | wildcardMajor => "a wildcard major cannot be followed by numbers".toList
  | negatedWildcard => "a wildcard cannot be negated".toList
  | unbounded t => "no version above ".toList ++ t ++ " to bound the range".toList

end Fault

inductive ConstraintError
  | empty
  | invalidToken (token : Text)
  | invalidOperator (operator : Text)
  | malformed (constraint : Text) (fault : Fault)
  | version (error : VersionError)
deriving DecidableEq

namespace ConstraintError

def message : ConstraintError → Text
  | empty => "Empty constraint expression".toList
  | invalidToken t => "Improper constraint: ".toList ++ t
  | invalidOperator t => "Invalid operator: ".toList ++ t
  | malformed t f => "Could not parse version constraint ".toList ++ t ++ [':', ' '] ++ f.message
  | version e => e.message

def cause? : ConstraintError → Option Text
  | version e => e.cause?
  | _ => none

end ConstraintError
end VersionConstraints
