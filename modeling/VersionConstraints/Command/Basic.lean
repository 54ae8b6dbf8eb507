import VersionConstraints.Constraint.Set
import VersionConstraints.Json

namespace VersionConstraints

inductive Command
  | compare (left right : Text)
  | check (expression : Text) (versions : List Text)
  | sort (versions : List Text) (reverse : Bool)
  | bump (part : Part) (version : Text)
  | explain (expression : Text)
deriving DecidableEq

-- What can be asked for around any command.
structure Options where
  scheme?   : Option Scheme
  strict    : Bool
  loose     : Bool
  json      : Bool
  verbosity : Nat
deriving DecidableEq

-- Of the two flags the strict one counts.
def Options.strict? (o : Options) : Option Bool :=
  match o.strict, o.loose with
  | true, _ => some true
  | _, true => some false
  | _, _ => none

-- What the arguments ask for.
inductive Request
  | run (command : Command) (options : Options)
  | version
  | help
  -- Nothing is asked for.
  | none
  | rejected
deriving DecidableEq

-- What a command finds out.
inductive Report
  | order (left right : Text) (result : Ordering)
  | verdicts (expression : Text) (results : List (Text × Bool))
  | sorted (versions : List Text)
  | bumped (origin next : Text)
  | expansion {s : Scheme} (set : ConstraintSet s)

namespace Report

def sign : Ordering → Int
  | .lt => -1
  | .eq => 0
  | .gt => 1

def verdictLine (expression : Text) : Text × Bool → Text
  | (version, satisfied) =>
    (if satisfied then '✓' else '✗') :: ' ' :: version ++ ' ' :: expression

def constraintLine {s : Scheme} (c : Constraint s) : Text :=
  [' ', ' '] ++ c.text ++ "  (from ".toList ++ c.source ++ [')']

-- Groups are numbered from one.
def groupLines {s : Scheme} : (number : Nat) → List (List (Constraint s)) → List Text
  | _, [] => []
  | n, g :: gs =>
    ("group ".toList ++ Decimal.digits n ++ [':']) :: g.map constraintLine ++ groupLines (n + 1) gs

def lines : Report → List Text
  | order _ _ result => [Decimal.signed (sign result)]
  | verdicts expression results => results.map (verdictLine expression)
  | sorted versions => versions
  | bumped _ next => [next]
  | expansion set => set.text :: groupLines 1 set.groups

def text (r : Report) : Text :=
  r.lines.flatMap (· ++ ['\n'])

def fields (fs : List (String × Json)) : Json :=
  .object (fs.map fun (name, j) => (name.toList, j))

def constraintJson {s : Scheme} (c : Constraint s) : Json :=
  fields [("operator", .string c.operator.symbol), ("version", .string c.bound.text),
    ("from", .string c.source)]

def json : Report → Json
  | order left right result =>
    fields [("left", .string left), ("right", .string right), ("result", .integer (sign result))]
  | verdicts expression results =>
    fields [("constraint", .string expression),
      ("results", .array (results.map fun (version, satisfied) =>
        fields [("version", .string version), ("satisfied", .boolean satisfied)]))]
  | sorted versions => .array (versions.map .string)
  | bumped origin next => fields [("from", .string origin), ("to", .string next)]
  | expansion set =>
    fields [("expression", .string set.expression), ("expanded", .string set.text),
      ("groups", .array (set.groups.map fun g => .array (g.map constraintJson)))]

-- One where a version is refused by the expression it was checked against.
def exitCode : Report → Nat
  | verdicts _ results => if results.all (·.2) then 0 else 1
  | _ => 0

end Report
end VersionConstraints
