import VersionConstraints.Precedence

namespace VersionConstraints

inductive Scheme
  -- major.minor.patch, then a prerelease and metadata
  | semantic
  -- year.month.day, then a prerelease
  | calendar
deriving DecidableEq

namespace Scheme

def name : Scheme → Text
  | semantic => "semver".toList
  | calendar => "calver".toList

def ofName? (name : Text) : Option Scheme :=
  [semantic, calendar].find? (·.name == name)

-- The identifiers that can stand in metadata. A calendar version has none.
def label : Scheme → Text → Bool
  | semantic => Identifier.wellFormed
  | calendar => fun _ => false

-- A semantic version may be tagged with one leading v.
def untagged : Scheme → Text → Text
  | semantic, 'v' :: t => t
  | _, t => t

-- The numbers that can be read as a core. Loosely, one to three digit runs make a semantic core;
-- strictly, three numerals. A calendar core has a year of two or four digits and then at most a
-- month and a day, each of one or two digits; it has no stricter form.
def admits (strict : Bool) : Scheme → List Text → Bool
  | semantic, core =>
    if strict then core.length == 3 && core.all Decimal.isNumeral
    else core.length ≤ 3 && core.all Decimal.isRun
  | calendar, [] => false
  | calendar, year :: rest =>
    Decimal.isRun year && (year.length == 2 || year.length == 4) &&
      rest.length ≤ 2 && rest.all fun n => Decimal.isRun n && n.length ≤ 2

-- How the numbers are written: month and day with at least two digits, all else without padding.
def core : Scheme → (major minor patch : Segment) → List Text
  | semantic, M, m, p => [M, m, p].map fun n => Decimal.digits n.toNat
  | calendar, M, m, p => [Decimal.digits M.toNat, Decimal.padded m.toNat, Decimal.padded p.toNat]

-- The text of the lowest release.
def minimum : Scheme → Text
  | semantic => "0.0.0".toList
  | calendar => "00.00.00".toList

def invalid : Scheme → Text → VersionError
  | semantic => .invalidSemantic
  | calendar => .invalidCalendar

end Scheme

-- Metadata labels a version without ranking it.
abbrev Metadata (s : Scheme) := Dotted s.label

namespace Metadata

variable {s : Scheme}

def ofParts (parts : List Text) : Except VersionError (Metadata s) :=
  match Dotted.ofParts? parts with
  | some d => .ok d
  | none => .error (.invalidMetadata (Text.dotted parts))

theorem eq_none_of_calendar (d : Metadata .calendar) : d = Dotted.none := by
  ext1
  match h : d.parts with
  | [] => rfl
  | i :: _ => exact absurd (d.valid i (h ▸ .head _)) (by simp [Scheme.label])

end Metadata
end VersionConstraints
