import VersionConstraints.Identifier
import VersionConstraints.Segment

namespace VersionConstraints

abbrev Prerelease := Dotted Identifier.canonical

namespace Prerelease

-- Two lists rank by their first difference. The one that ends
-- first goes on with missing identifiers.
def orderParts (is js : List Text) : Ordering :=
  List.zipWithAll (fun i j => Identifier.order (i.getD []) (j.getD [])) is js |>.foldr .then .eq

-- A release ranks above each of its prereleases.
def order : Prerelease → Prerelease → Ordering :=
  compareLex (compareOn Dotted.isAbsent) fun p q => orderParts p.parts q.parts

-- The first identifier that cannot be ranked decides what is wrong.
def fault (parts : List Text) : VersionError :=
  match parts.find? (!Identifier.canonical ·) with
  | some i =>
    if Identifier.wellFormed i then .leadingZero (Text.dotted parts)
    else .invalidPrerelease (Text.dotted parts)
  | none => .invalidPrerelease (Text.dotted parts)

def ofParts (parts : List Text) : Except VersionError Prerelease :=
  match Dotted.ofParts? parts with
  | some p => .ok p
  | none => .error (fault parts)

end Prerelease

-- All that ranks a version, whatever its scheme.
@[ext]
structure Precedence where
  major      : Segment
  minor      : Segment
  patch      : Segment
  prerelease : Prerelease
deriving DecidableEq

namespace Precedence

def order : Precedence → Precedence → Ordering :=
  compareLex (compareOn major) <| compareLex (compareOn minor) <| compareLex (compareOn patch)
    fun p q => Prerelease.order p.prerelease q.prerelease

instance : Ord Precedence :=
  ⟨order⟩

instance : LT Precedence :=
  ltOfOrd

instance : LE Precedence :=
  leOfOrd

instance : DecidableLT Precedence :=
  fun p q => inferInstanceAs (Decidable (compare p q = .lt))

instance : DecidableLE Precedence :=
  fun p q => inferInstanceAs (Decidable ((compare p q).isLE = true))

-- The data by which a version is hashed.
def key (p : Precedence) : Segment × Segment × Segment × String :=
  (p.major, p.minor, p.patch, String.ofList p.prerelease.text)

instance : Hashable Precedence :=
  ⟨fun p => hash p.key⟩

def isPrerelease (p : Precedence) : Bool :=
  !p.prerelease.isAbsent

end Precedence
end VersionConstraints
