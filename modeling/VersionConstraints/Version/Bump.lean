import VersionConstraints.Version.Basic

namespace VersionConstraints

inductive Part
  | major
  | minor
  | patch
deriving DecidableEq

namespace Part

def name : Part → Text
  | major => "major".toList
  | minor => "minor".toList
  | patch => "patch".toList

def ofName? (name : Text) : Option Part :=
  [major, minor, patch].find? (·.name == name)

end Part

namespace Precedence

-- The release that follows in the given part: the part is one higher and all after it is reset.
-- A prerelease is followed in its patch by the release that it precedes.
def bump : Part → Precedence → Precedence
  | .major, p => { p with major := p.major.next, minor := 0, patch := 0, prerelease := Dotted.none }
  | .minor, p => { p with minor := p.minor.next, patch := 0, prerelease := Dotted.none }
  | .patch, p =>
    { p with patch := if p.isPrerelease then p.patch else p.patch.next, prerelease := Dotted.none }

end Precedence

namespace Version

variable {s : Scheme}

-- The tag of a semantic version is kept, its metadata is not.
def bump (part : Part) (v : Version s) : Version s :=
  let next : Version s := { v.toPrecedence.bump part with metadata := Dotted.none, spelling := [] }
  { next with spelling := (if s = .semantic ∧ v.isTagged then ['v'] else []) ++ next.text }

end Version
end VersionConstraints
