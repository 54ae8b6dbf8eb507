import VersionConstraints.Text.Basic

namespace VersionConstraints.Toml

-- How a table came to be, which decides what may still be added to it.
inductive Origin
  -- by the header of a table inside it
  | implied
  -- by a header of its own
  | header
  -- by a dotted key
  | dotted
  -- between braces
  | inline
deriving DecidableEq

inductive Value
  | text (t : Text)
  | boolean (b : Bool)
  | integer (n : Int)
  | table (origin : Origin) (entries : List (Text × Value))

abbrev Entries := List (Text × Value)

namespace Entries

def put (es : Entries) (key : Text) (v : Value) : Entries :=
  match es with
  | [] => [(key, v)]
  | e :: es => if e.1 == key then (key, v) :: es else e :: put es key v

-- Adds a value under a key, where the names in front of the last are tables made by dotted keys.
-- A key is given once, and tables made otherwise cannot be extended so.
def insert (es : Entries) : (key : List Text) → Value → Option Entries
  | [], _ => none
  | [k], v => if (es.lookup k).isNone then some (put es k v) else none
  | k :: l :: ks, v =>
    match es.lookup k with
    | none => return put es k (.table .dotted (← insert [] (l :: ks) v))
    | some (.table o sub) =>
      if o = .dotted ∨ (o = .implied ∧ ks ≠ []) then
        return put es k (.table o (← insert sub (l :: ks) v))
      else none
    | some _ => none

-- Opens the table of a header. A table has one header, and what was made
-- by a dotted key or between braces has none.
def openTable (es : Entries) : List Text → Option Entries
  | [] => none
  | [k] =>
    match es.lookup k with
    | none => some (put es k (.table .header []))
    | some (.table .implied sub) => some (put es k (.table .header sub))
    | some _ => none
  | k :: l :: ks =>
    match es.lookup k with
    | none => return put es k (.table .implied (← openTable [] (l :: ks)))
    | some (.table o sub) =>
      if o = .inline then none else return put es k (.table o (← openTable sub (l :: ks)))
    | some _ => none

-- Applies `f` to the entries of the table with the given name.
def within (es : Entries) : (name : List Text) → (f : Entries → Option Entries) → Option Entries
  | [], f => f es
  | k :: ks, f =>
    match es.lookup k with
    | some (.table o sub) => return put es k (.table o (← within sub ks f))
    | _ => none

end Entries
end VersionConstraints.Toml
