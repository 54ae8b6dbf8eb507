import VersionConstraints.FileTree
import VersionConstraints.Scheme

namespace VersionConstraints

-- What a settings file says. Each of the two may be left open.
structure Config where
  scheme? : Option Scheme
  strict? : Option Bool
deriving DecidableEq

-- Reads the text of a settings file: what it says, or what is wrong with it.
abbrev Decoder :=
  Text → Except Text Config

-- Why the settings are not known. The cause lies behind the error.
inductive ConfigError
  | unreadable (path cause : Text)
  | invalid (path cause : Text)
deriving DecidableEq

namespace ConfigError

def message : ConfigError → Text
  | unreadable p _ => "Failed to read ".toList ++ p
  | invalid p _ => "Failed to parse ".toList ++ p

def cause : ConfigError → Text
  | unreadable _ c => c
  | invalid _ c => c

end ConfigError

namespace Config

def fileName : Text :=
  "vc.toml".toList

-- The closest directory that has a settings file, going upward from the given one. A directory
-- under the name of the file is passed over.
def nearest? (tree : FileTree) : Path → Option Path
  | [] => if tree.isFile [fileName] then some [] else none
  | name :: parent =>
    if tree.isFile (fileName :: name :: parent) then some (name :: parent)
    else nearest? tree parent

def read (decode : Decoder) (tree : FileTree) (directory : Path) : Except ConfigError Config := do
  let path := fileName :: directory
  let content ← (tree.read path).mapError (.unreadable (tree.pathText path))
  (decode content).mapError (.invalid (tree.pathText path))

-- The nearest file alone counts, whether it can be read or not.
def load (decode : Decoder) (tree : FileTree) (start : Path) : Except ConfigError (Option Config) :=
  match nearest? tree start with
  | some directory => (read decode tree directory).map some
  | none => .ok none

end Config

structure Settings where
  scheme : Scheme
  strict : Bool
deriving DecidableEq

namespace Settings

-- What is asked for goes before what the file says.
def resolve (config : Option Config) (scheme? : Option Scheme) (strict? : Option Bool) :
    Settings where
  scheme := (scheme? <|> config.bind (·.scheme?)).getD .semantic
  strict := (strict? <|> config.bind (·.strict?)).getD false

end Settings
end VersionConstraints
