import VersionConstraints.Version.Parts

namespace VersionConstraints

-- A version text whose numbers may be wildcards. The numbers stand between dots, up to the first
-- hyphen or plus sign; what follows is kept as it is.
structure Pattern where
  tagged   : Bool
  segments : List Text
  suffix   : Text
deriving DecidableEq

namespace Pattern

def isWildcard (segment : Text) : Bool :=
  segment == ['*'] || segment == ['x'] || segment == ['X']

def untag : Text → Bool × Text
  | 'v' :: t => (true, t)
  | t => (false, t)

def ofText (t : Text) : Pattern :=
  let (tagged, t) := untag t
  { tagged
    segments := (t.takeWhile Parts.inCore).splitOn '.'
    suffix   := t.dropWhile Parts.inCore }

def isUniversal (p : Pattern) : Bool :=
  p.segments.all isWildcard

def hasWildcard (p : Pattern) : Bool :=
  p.segments.any isWildcard

-- The segments in front of the first wildcard.
def explicit (p : Pattern) : List Text :=
  p.segments.takeWhile (!isWildcard ·)

-- The first version that the pattern stands for: the first wildcard
-- and all segments after it are zero.
def concrete (p : Pattern) : Text :=
  (if p.tagged then ['v'] else []) ++
    Text.dotted (p.explicit ++ (p.segments.drop p.explicit.length).map fun _ => ['0']) ++ p.suffix

end Pattern
end VersionConstraints
