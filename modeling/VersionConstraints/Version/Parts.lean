import VersionConstraints.Text.Basic

namespace VersionConstraints

-- A version text taken apart: the pieces between the dots of its core, of its prerelease and of its
-- metadata. The last two have no pieces where they are not written.
@[ext]
structure Parts where
  core       : List Text
  prerelease : List Text
  metadata   : List Text
deriving DecidableEq

namespace Parts

-- The core ends at the first hyphen or plus sign.
def inCore (c : Char) : Bool :=
  c != '-' && c != '+'

-- What a mark introduces. The mark on its own introduces one empty piece.
def marked (mark : Char) : Text → List Text
  | c :: t => if c == mark then t.splitOn '.' else []
  | [] => []

def ofText (t : Text) : Parts where
  core       := (t.takeWhile inCore).splitOn '.'
  prerelease := marked '-' ((t.dropWhile inCore).takeWhile (· != '+'))
  metadata   := marked '+' ((t.dropWhile inCore).dropWhile (· != '+'))

def mark (c : Char) (pieces : List Text) : Text :=
  if pieces.isEmpty then [] else c :: Text.dotted pieces

def text (p : Parts) : Text :=
  Text.dotted p.core ++ mark '-' p.prerelease ++ mark '+' p.metadata

end Parts
end VersionConstraints
