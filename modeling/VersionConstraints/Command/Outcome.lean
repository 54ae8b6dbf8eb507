import VersionConstraints.Command.Basic
import VersionConstraints.Settings

namespace VersionConstraints

inductive Failure
  | settings (error : ConfigError)
  | version (scheme : Scheme) (text : Text) (error : VersionError)
  | constraint (expression : Text) (error : ConstraintError)
deriving DecidableEq

namespace Failure

def message : Failure → Text
  | settings e => e.message
  | version s t _ => "Failed to parse ".toList ++ s.name ++ " version ".toList ++ t.quoted
  | constraint t _ => "Failed to parse constraint ".toList ++ t.quoted

-- From the error down to what lies behind it.
def causes : Failure → List Text
  | settings e => [e.cause]
  | version _ _ e => e.message :: e.cause?.toList
  | constraint _ e => e.message :: e.cause?.toList

def text (f : Failure) : Text :=
  "Error: ".toList ++ f.message ++ ['\n'] ++
    f.causes.flatMap fun cause => "  Caused by: ".toList ++ cause ++ ['\n']

end Failure

namespace Command

def readVersion (strict : Bool) (s : Scheme) (t : Text) : Except Failure (Version s) :=
  (Version.read strict s t).mapError (.version s t)

-- Expressions have no strict form.
def readExpression (s : Scheme) (t : Text) : Except Failure (ConstraintSet s) :=
  (ConstraintSet.parse s t).mapError (.constraint t)

def verdict {s : Scheme} (strict : Bool) (set : ConstraintSet s) (t : Text) :
    Except Failure (Text × Bool) := do
  let v ← readVersion strict s t
  return (t, set.check v)

-- Everything is read before anything is reported, so that a failure leaves no half report.
def report (settings : Settings) : Command → Except Failure Report
  | compare left right => do
    let v ← readVersion settings.strict settings.scheme left
    let w ← readVersion settings.strict settings.scheme right
    return .order left right (Ord.compare v.toPrecedence w.toPrecedence)
  | check expression versions => do
    let set ← readExpression settings.scheme expression
    return .verdicts expression (← versions.mapM (verdict settings.strict set))
  | sort versions reverse => do
    let vs ← versions.mapM (readVersion settings.strict settings.scheme)
    let sorted := if reverse then Version.rsort vs else Version.sort vs
    return .sorted (sorted.map (·.spelling))
  | bump part version => do
    let v ← readVersion settings.strict settings.scheme version
    return .bumped version (v.bump part).spelling
  | explain expression => return .expansion (← readExpression settings.scheme expression)

end Command

-- How a run ends.
inductive Outcome
  | report (report : Report) (json : Bool)
  -- With the settings loaded, log lines come first if they are asked for.
  | failure (failure : Failure) (logged : Bool)
  | version
  | help
  | none
  | rejected

namespace Outcome

def code : Outcome → Nat
  | report r _ => r.exitCode
  | version => 0
  | help => 0
  | failure _ _ => 2
  | none => 2
  | rejected => 2

end Outcome

def Command.run (decode : Decoder) (tree : FileTree) (directory : Path) (command : Command)
    (options : Options) : Outcome :=
  match Config.load decode tree directory with
  | .error e => .failure (.settings e) false
  | .ok config =>
    match command.report (Settings.resolve config options.scheme? options.strict?) with
    | .error f => .failure f (options.verbosity ≠ 0)
    | .ok r => .report r options.json

-- What the tool takes from others: how its arguments and its settings file are read, how JSON is
-- written, and what is said about the tool itself.
structure Tool where
  request     : List Text → Request
  decode      : Decoder
  pretty      : Json → Text
  versionText : Text
  helpText    : Text
  refusalText : Text

namespace Tool

-- The whole run of the tool in a directory. Arguments that are rejected
-- are rejected before any file is looked for.
def run (tool : Tool) (tree : FileTree) (directory : Path) (args : List Text) : Outcome :=
  match tool.request args with
  | .run command options => command.run tool.decode tree directory options
  | .version => .version
  | .help => .help
  | .none => .none
  | .rejected => .rejected

def output (tool : Tool) : Outcome → Text
  | .report r json => if json then tool.pretty r.json ++ ['\n'] else r.text
  | .version => tool.versionText
  | .help => tool.helpText
  | _ => []

-- What is written beside the output.
def complaint (tool : Tool) : Outcome → Text
  | .failure f _ => f.text
  | .none => tool.helpText
  | .rejected => tool.refusalText
  | _ => []

end Tool
end VersionConstraints
