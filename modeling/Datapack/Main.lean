import Datapack.CommandLine

/-!
The program itself: it reads the files that its arguments name and prints the report.
-/

namespace Datapack.CommandLine

def fileText? (path : String) : IO (Option String) := do
  try
    return some (← IO.FS.readFile path)
  catch _ => return none

end Datapack.CommandLine

open Datapack Datapack.CommandLine

def main (args : List String) : IO UInt32 := do
  let paths := match Options.ofArgs? args with
    | some options => options.file :: (options.config.toList ++ options.data.toList)
    | none => []
  let texts ← paths.mapM fun path => do return (path, ← fileText? path)
  let stdout ← IO.getStdout
  let report := run (← stdout.isTty) (fun path => (Ordered.get? path texts).join) args
  stdout.putStr report.stdout
  (← IO.getStderr).putStr report.stderr
  return report.exitCode.toUInt32
