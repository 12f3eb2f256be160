import EcmaPhp.CommandLine.Run
import EcmaPhp.Source.TreeText

/-! The command line program. A parser of the source language leaves the concrete tree of a source
in writing beside it, in a file with the suffix `.tree`; the tree of the standard input is in
`stdin.tree`. -/
namespace EcmaPhp.CommandLine

/-- The bytes of a file, or why there are none. -/
def readFile (path : String) : IO (Except FileError (List UInt8)) :=
  try return .ok (← IO.FS.readBinFile path).toList
  catch
    | .unsupportedOperation .. | .inappropriateType .. => return .error (.isFolder path)
    | _ => return .error (.notFound path)

def readInput : Option String → IO (Except FileError (List UInt8))
  | some path => readFile path
  | none => return .ok (← (← IO.getStdin).readToEnd).toUTF8.toList

def runMain (arguments : Arguments) : IO UInt32 := do
  let stderr ← IO.getStderr
  let stop (message : String) : IO UInt32 := do
    stderr.putStrLn (programName ++ ": " ++ message)
    return 1
  let treePath := arguments.inputPath?.getD "stdin" ++ ".tree"
  match (← readInput arguments.inputPath?) >>= sourceText, (← readFile treePath) >>= sourceText with
  | .error e, _ | _, .error e => stop e.message
  | .ok source, .ok written =>
    match Concrete.read? written with
    | none => stop ("no tree in " ++ treePath)
    | some tree =>
      match report arguments source tree with
      | .error failure => stop failure.message
      | .ok result =>
        match result.file with
        | some (path, text) => IO.FS.writeFile path text
        | none => pure ()
        (← IO.getStdout).putStr result.stdout
        stderr.putStr result.stderr
        return result.exit.toUInt32

end EcmaPhp.CommandLine

open EcmaPhp.CommandLine in
def main (words : List String) : IO UInt32 := do
  match Request.ofWords words with
  | .error e =>
    (← IO.getStderr).putStrLn (Report.ofUsageError e).stderr
    return 2
  | .ok .help =>
    (← IO.getStdout).putStr helpText
    return 0
  | .ok (.run arguments) => runMain arguments
