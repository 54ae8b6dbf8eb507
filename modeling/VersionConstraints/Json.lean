import VersionConstraints.Text.Decimal

namespace VersionConstraints

inductive Json
  | string (t : Text)
  | integer (n : Int)
  | boolean (b : Bool)
  | array (items : List Json)
  | object (fields : List (Text × Json))

namespace Json

-- Only quotes, backslashes and control characters are escaped.
def escape (c : Char) : Text :=
  match c with
  | '"'    => ['\\', '"']
  | '\\'   => ['\\', '\\']
  | '\x08' => ['\\', 'b']
  | '\x0c' => ['\\', 'f']
  | '\n'   => ['\\', 'n']
  | '\r'   => ['\\', 'r']
  | '\t'   => ['\\', 't']
  | c =>
    if c.toNat < 0x20 then
      ['\\', 'u', '0', '0', Nat.digitChar (c.toNat / 16), Nat.digitChar (c.toNat % 16)]
    else [c]

def quoted (t : Text) : Text :=
  Text.quoted (t.flatMap escape)

-- A line break, and the margin of the given depth after it.
def newline (depth : Nat) : Text :=
  '\n' :: List.replicate (2 * depth) ' '

-- One item a line, two spaces for each depth. Without items the brackets close at once.
def enclosed (opening closing : Char) (depth : Nat) : List Text → Text
  | [] => [opening, closing]
  | items =>
    opening :: newline (depth + 1) ++ (',' :: newline (depth + 1)).intercalate items ++
      newline depth ++ [closing]

mutual

def prettyAt (depth : Nat) : Json → Text
  | string t => quoted t
  | integer n => Decimal.signed n
  | boolean b => if b then "true".toList else "false".toList
  | array items => enclosed '[' ']' depth (prettyItems (depth + 1) items)
  | object fields => enclosed '\x7b' '\x7d' depth (prettyFields (depth + 1) fields)

def prettyItems (depth : Nat) : List Json → List Text
  | [] => []
  | j :: js => prettyAt depth j :: prettyItems depth js

def prettyFields (depth : Nat) : List (Text × Json) → List Text
  | [] => []
  | (name, j) :: fields =>
    (quoted name ++ ':' :: ' ' :: prettyAt depth j) :: prettyFields depth fields

end

def pretty (j : Json) : Text :=
  prettyAt 0 j

end Json
end VersionConstraints
