/-
The command line: checks the files that it is given.

The files are read in their order and their problems are written to the error stream.  A
file that gives no descriptor ends the run.  The exit code says whether there were any
problems.
-/
import ProtoSchema.Schema

namespace ProtoSchema.CommandLine

/-- The bytes of a file, or why they cannot be had. -/
def contents (path : String) : IO (Except String (List UInt8)) := do
  try
    let bytes ← IO.FS.readBinFile path
    pure (.ok bytes.toList)
  catch e => pure (.error (toString e))

/-- Whether none of the files has problems; those that they have are shown. -/
def check : List String → IO Bool
  | [] => pure true
  | path :: paths => do
    match readContents path (← contents path) with
    | .ok schema =>
      if schema.hasErrors then IO.eprintln schema.report.text
      let others ← check paths
      pure (!schema.hasErrors && others)
    | .error failure =>
      IO.eprintln failure.text
      pure false

end ProtoSchema.CommandLine

def main (paths : List String) : IO UInt32 := do
  if paths.isEmpty then
    IO.eprintln "no files given"
    return 2
  return if ← ProtoSchema.CommandLine.check paths then 0 else 1
