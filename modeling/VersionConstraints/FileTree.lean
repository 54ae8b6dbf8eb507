import VersionConstraints.Text.Blank

namespace VersionConstraints

-- The names that lead to an entry, the entry's own name first.
abbrev Path := List Text

namespace Path

-- One dot stays in place. Two dots go up, which the root does not allow.
def step : Path → (name : Text) → Option Path
  | path, ['.'] => some path
  | path, ['.', '.'] => path.tail?
  | path, name => some (name :: path)

-- Follows the names between the slashes, from the root.
def ofText? (t : Text) : Option Path :=
  (Text.runs (· == '/') t).foldlM step []

end Path

inductive Entry
  | file (content : Text)
  | directory
  -- A regular file without a text that could be read, and why there is none.
  | unreadable (cause : Text)

structure FileTree where
  -- How the root itself is written.
  root   : Text
  entry? : Path → Option Entry

namespace FileTree

def isFile (tree : FileTree) (path : Path) : Bool :=
  match tree.entry? path with
  | some (.file _) => true
  | some (.unreadable _) => true
  | _ => false

-- The text that stands under a path, or why there is none.
def read (tree : FileTree) (path : Path) : Except Text Text :=
  match tree.entry? path with
  | some (.file content) => .ok content
  | some (.unreadable cause) => .error cause
  | some .directory => .error "Is a directory (os error 21)".toList
  | none => .error "No such file or directory (os error 2)".toList

def pathText (tree : FileTree) (path : Path) : Text :=
  tree.root ++ path.reverse.flatMap ('/' :: ·)

-- An entry replaces those listed before it.
def ofList (root : Text) (entries : List (Path × Entry)) : FileTree where
  root   := root
  entry? := fun path => entries.reverse.lookup path

end FileTree
end VersionConstraints
