import CssOutline.Command

/-!
The program: reads the inputs of a command and prints its result.
-/

namespace CssOutline.Main

/-- What a command reports of an error of the system. -/
def fault : IO.Error → InputFault
  | .noFileOrDirectory _ _ _ => .notFound
  | .inappropriateType _ 21 _ => .isDirectory
  | .inappropriateType _ _ _ => .notDirectory
  | .userError _ => .notText
  | .permissionDenied _ _ _ => .other "Permission denied (os error 13)"
  | e => .other e.toString

def attempt (read : IO String) : IO (Except InputFault String) := do
  try
    let text ← read
    return .ok text
  catch e => return .error (fault e)

def readInputs : List SystemText → IO (List (SystemText × Except InputFault String))
  | [] => return []
  | path :: paths => do
    let result ←
      if Command.isStandardInput path then pure (.ok "") else attempt (IO.FS.readFile path.display)
    let results ← readInputs paths
    return (path, result) :: results

def run (c : Command) : IO UInt32 := do
  let files ← readInputs c.inputs
  let usesStandardInput := c.inputs.any Command.isStandardInput
  let standardInput ←
    if usesStandardInput then attempt (do (← IO.getStdin).readToEnd) else pure (.ok "")
  let report := Command.report
    (c.runFrom (fun path => (files.lookup path).getD (.error .notFound)) standardInput)
  IO.print report.output
  IO.eprint report.errors
  return report.code

end CssOutline.Main

def main (args : List String) : IO UInt32 :=
  match CssOutline.Command.parse? (args.map CssOutline.SystemText.ofString) with
  | some c => CssOutline.Main.run c
  | none => do
    IO.eprintln "usage: decode [--compact] INPUT... | encode [--indent TEXT] INPUT"
    return 2
