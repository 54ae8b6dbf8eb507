import VersionConstraints.Scheme
import VersionConstraints.Version.Parts

namespace VersionConstraints

structure Version (s : Scheme) extends Precedence where
  metadata : Metadata s
  -- The text that the version was read from.
  spelling : Text

namespace Version

variable {s : Scheme}

instance : CoeOut (Version s) Precedence :=
  ⟨toPrecedence⟩

-- Metadata and spelling do not tell versions apart.
instance : BEq (Version s) :=
  ⟨fun v w => compare v.toPrecedence w.toPrecedence == .eq⟩

instance : Hashable (Version s) :=
  ⟨fun v => hash v.toPrecedence⟩

def parts (v : Version s) : Parts where
  core       := s.core v.major v.minor v.patch
  prerelease := v.prerelease.parts
  metadata   := v.metadata.parts

-- The numbers alone.
def core (v : Version s) : Text :=
  Text.dotted v.parts.core

def text (v : Version s) : Text :=
  v.parts.text

-- A version that was not read from a text is spelled by its own text.
def canonical (v : Version s) : Version s :=
  { v with spelling := v.text }

def ofParts (major minor patch : Segment) (prerelease metadata : List Text) :
    Except VersionError (Version s) := do
  let prerelease ← Prerelease.ofParts prerelease
  let metadata ← Metadata.ofParts metadata
  return canonical { major, minor, patch, prerelease, metadata, spelling := [] }

-- A calendar version takes no metadata, whatever is given.
def new (s : Scheme) (major minor patch : Segment) (prerelease metadata : Text) :
    Except VersionError (Version s) :=
  ofParts major minor patch prerelease.pieces (if s = .calendar then [] else metadata.pieces)

def isTagged (v : Version s) : Bool :=
  v.spelling.head? == some 'v'

-- The lowest prerelease of the lowest release, below which no version ranks.
def bottom (s : Scheme) : Version s where
  major      := 0
  minor      := 0
  patch      := 0
  prerelease := ⟨[['0']], by decide⟩
  metadata   := Dotted.none
  spelling   := s.minimum ++ ['-', '0']

-- The numbers that are not written are zero.
def segment (digits : Option Text) : Except VersionError Segment :=
  match digits with
  | some digits => Segment.ofDigits digits
  | none => .ok 0

-- Whether a text has the shape of a version. Its numbers may still be too large, and its
-- prerelease may still hold a number with leading zeros.
def hasShape (strict : Bool) (s : Scheme) (p : Parts) : Bool :=
  s.admits strict p.core && p.prerelease.all Identifier.wellFormed && p.metadata.all s.label

def read (strict : Bool) (s : Scheme) (t : Text) : Except VersionError (Version s) :=
  let p := Parts.ofText (s.untagged t)
  if hasShape strict s p then do
    let major ← segment p.core[0]?
    let minor ← segment p.core[1]?
    let patch ← segment p.core[2]?
    let v ← ofParts major minor patch p.prerelease p.metadata
    return { v with spelling := t }
  else
    .error (s.invalid t)

-- Minor and patch may be left out, and leading zeros are passed over.
def parse (s : Scheme) : Text → Except VersionError (Version s) :=
  read false s

def parseStrict (s : Scheme) : Text → Except VersionError (Version s) :=
  read true s

-- Both sorts leave versions of one rank in the order given.

def sort (vs : List (Version s)) : List (Version s) :=
  vs.mergeSort fun v w => v.toPrecedence ≤ w.toPrecedence

def rsort (vs : List (Version s)) : List (Version s) :=
  vs.mergeSort fun v w => w.toPrecedence ≤ v.toPrecedence

end Version
end VersionConstraints
