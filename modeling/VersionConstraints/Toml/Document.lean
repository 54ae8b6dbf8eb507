import VersionConstraints.Toml.Lexical

namespace VersionConstraints.Toml

-- A document is read as far as its lines are comments, headers of tables and pairs, and its values
-- are booleans, integers, strings within a line and inline tables. No others are read: arrays,
-- floats, dates, strings over several lines.
inductive Line
  | nothing
  | header (name : List Text)
  | pair (key : List Text) (value : Value)

namespace Line

-- What may stand at the end of a line.
def isVoid (t : Text) : Bool :=
  match skipBlanks t with
  | [] => true
  | '#' :: t => t.all isPlain
  | _ => false

def ofText? (t : Text) : Option Line :=
  if isVoid t then some nothing
  else
    match skipBlanks t with
    | '[' :: t => do
      match ← key t with
      | (name, ']' :: t) => if isVoid t then some (header name) else none
      | _ => none
    | t => do
      match ← key t with
      | (key, '=' :: t) =>
        let (v, t) ← value (skipBlanks t)
        if isVoid t then some (pair key v) else none
      | _ => none

end Line

-- Pairs belong to the table that the last header has opened.
structure Document where
  entries : Entries
  current : List Text

namespace Document

def add (d : Document) : Line → Option Document
  | .nothing => some d
  | .header name => return { entries := ← d.entries.openTable name, current := name }
  | .pair key v => return { d with entries := ← d.entries.within d.current (·.insert key v) }

-- A line may end in a carriage return before the line feed.
def lines (t : Text) : List Text :=
  let pieces := t.splitOn '\n'
  let trimmed := pieces.dropLast.map fun l => if l.getLast? = some '\r' then l.dropLast else l
  trimmed ++ [pieces.getLastD []]

def unmarked : Text → Text
  | '\uFEFF' :: t => t
  | t => t

def ofText? (t : Text) : Option Entries := do
  let ls ← (lines (unmarked t)).mapM Line.ofText?
  let d ← ls.foldlM add { entries := [], current := [] }
  return d.entries

end Document
end VersionConstraints.Toml
