import VersionConstraints.Command.Run

namespace VersionConstraints.Main

-- What stands under the name of the settings file in a directory.
def settingsEntry (directory : Path) : IO (List (Path × Entry)) := do
  let path := Config.fileName :: directory
  let file := String.ofList (path.reverse.flatMap ('/' :: ·))
  try
    match (← (← IO.FS.realPath file).metadata).type with
    | .file =>
      try
        return [(path, .file (← IO.FS.readFile file).toList)]
      catch e =>
        return [(path, .unreadable (toString e).toList)]
    | .dir => return [(path, .directory)]
    | _ => return []
  catch _ =>
    return []

-- The part of the file system that can matter: the settings files from the directory upward.
def settingsEntries : Path → IO (List (Path × Entry))
  | [] => settingsEntry []
  | name :: parent => do
    return (← settingsEntry (name :: parent)) ++ (← settingsEntries parent)

end VersionConstraints.Main

open VersionConstraints in
def main (args : List String) : IO UInt32 := do
  let directory := (Path.ofText? (← IO.currentDir).toString.toList).getD []
  let tree := FileTree.ofList [] (← Main.settingsEntries directory)
  let outcome := run tree directory (args.map String.toList)
  IO.print (String.ofList outcome.output)
  IO.eprint (String.ofList outcome.complaint)
  return outcome.code.toUInt32
