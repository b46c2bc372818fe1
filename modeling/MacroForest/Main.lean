/-
**The command line.**

Main definitions:

* `MacroForest.snapshot` — what is found at a path at the time of asking;
* `main` — reads the files that the arguments lead to, and carries out what is asked for.
-/

import MacroForest.Console.Run

set_option relaxedAutoImplicit false
set_option autoImplicit false

namespace MacroForest

/-- The entry of a directory, with all that is below it. -/
partial def snapshotEntry (e : IO.FS.DirEntry) : IO Entity := do
  if ← e.path.isDir then
    let children ← (← e.path.readDir).mapM fun child => do
      return (child.fileName, ← snapshotEntry child)
    return .directory children.toList
  else return .file (← IO.FS.readBinFile e.path)

/-- What is found at a path. -/
def snapshot (path : String) : IO (Except FileFault Entity) := do
  try
    let there ← IO.FS.realPath path
    if ← there.isDir then
      let children ← (← there.readDir).mapM fun child => do
        return (child.fileName, ← snapshotEntry child)
      return .ok (.directory children.toList)
    else return .ok (.file (← IO.FS.readBinFile path))
  catch e =>
    match e with
    | .inappropriateType .. => return .error .notDirectory
    | _ => return .error .notFound

/-- Whether the terminal shows colours. -/
def terminalShowsColours : IO Bool := do
  let terminal ← IO.getEnv "TERM"
  let refused ← IO.getEnv "NO_COLOR"
  return terminal.any (· != "dumb") && refused.isNone

/-- The files at the paths that some arguments lead to. -/
def filesFor (arguments : List String) : IO Files := do
  let paths := match Request.ofArguments arguments with
    | .ok request => request.paths
    | .error _ => []
  let found ← paths.mapM fun path => return (path, ← snapshot path)
  return fun path => (found.lookup path).getD (.error .notFound)

end MacroForest

/-- Carries out what the arguments ask for. -/
def main (arguments : List String) : IO UInt32 := do
  let files ← MacroForest.filesFor arguments
  let report := MacroForest.runArguments arguments files (← MacroForest.terminalShowsColours)
  IO.print report.output
  IO.eprint report.told
  if let some e := report.error then
    IO.eprintln ("Error: " ++ e.code ++ "\n\n  × " ++ e.message)
  return report.exit.toUInt32
