import VersionConstraints.Command.Arguments
import VersionConstraints.Command.Outcome
import VersionConstraints.Toml.Document

namespace VersionConstraints

namespace Config

open Toml

def empty : Config :=
  ⟨none, none⟩

-- A scheme is given by its name, or by a table whose only key is the name and is empty.
def schemeOf? : Value → Option Scheme
  | .text t => Scheme.ofName? t
  | .table _ [(name, .table _ [])] => Scheme.ofName? name
  | _ => none

def booleanOf? : Value → Option Bool
  | .boolean b => some b
  | _ => none

-- Absent is fine, ill-typed is not.
def optional {α : Type} (read : Value → Option α) : Option Value → Option (Option α)
  | none => some none
  | some v => (read v).map some

-- Other keys are ignored.
def ofVersions? : Value → Option Config
  | .table _ es => do
    let scheme? ← optional schemeOf? (es.lookup "scheme".toList)
    let strict? ← optional booleanOf? (es.lookup "strict".toList)
    return { scheme?, strict? }
  | _ => none

def ofText? (content : Text) : Option Config := do
  let es ← Document.ofText? content
  return (← optional ofVersions? (es.lookup "versions".toList)).getD empty

def decode : Decoder :=
  fun content =>
    match ofText? content with
    | some config => .ok config
    | none => .error "not a settings file".toList

end Config

-- The tool with readers of its own, for arguments and for settings files without arrays, floats,
-- dates and strings over several lines. What is proved of a tool holds with any others.
def Tool.standard : Tool where
  request     := Arguments.read
  decode      := Config.decode
  pretty      := Json.pretty
  versionText := "vc 0.0.1\n".toList
  helpText    := "Usage: vc [OPTIONS] <compare|check|sort|bump|explain> [ARGUMENTS]\n".toList
  refusalText := "error: invalid arguments\n".toList

def run : FileTree → Path → List Text → Outcome :=
  Tool.standard.run

namespace Outcome

def output : Outcome → Text :=
  Tool.standard.output

def complaint : Outcome → Text :=
  Tool.standard.complaint

end Outcome
end VersionConstraints
