import EcmaPhp.CommandLine.Arguments
import EcmaPhp.CommandLine.Folder
import EcmaPhp.Program

/-! A run of the command line program. -/
namespace EcmaPhp.CommandLine

def programName : String := "js2php"

def helpText : String :=
  "usage: js2php [-h] [--namespace NAMESPACE] [--watermark WATERMARK] [--verbose-arrays] " ++
    "[--output OUTPUT] [--verbose] [file]\n"

/-- What a run leaves behind: exit code, both streams, and a file to write. -/
structure Report where
  exit : Nat
  stdout : String := ""
  stderr : String := ""
  file : Option (String × String) := none
  deriving DecidableEq, Repr

def Report.ofUsageError (e : UsageError) : Report :=
  { exit := 2, stderr := programName ++ ": error: " ++ e.message }

def Arguments.options (a : Arguments) : Options :=
  { conciseArrays := !a.verboseArrays, namespaceName := a.namespaceName, watermark := a.watermark }

/-- The file to read; without one the source comes from the standard input. -/
def Arguments.inputPath? (a : Arguments) : Option String := a.file.filter (!·.isEmpty)

/-- The file to write; without one the text goes to the standard output. -/
def Arguments.outputPath? (a : Arguments) : Option String := a.output.filter (!·.isEmpty)

def logText (events : List Event) : String := String.join (events.map fun e => e.line ++ "\n")

/-- Whether a failure is the program's own report on its input. -/
def isReported : Failure → Bool
  | .fault .. | .unsupported .. => true
  | .missingField .. | .missingChild .. | .unknownLanguage .. => false

/-- The report on a source text with its concrete tree. -/
def report (a : Arguments) (source : String) (tree : Concrete) : Except Failure Report :=
  let outcome := toPhp a.options source tree
  let logged (events : List Event) : String := if a.verbose then logText events else ""
  match outcome.result, a.outputPath? with
  | .ok text, none => .ok { exit := 0, stdout := text, stderr := logged outcome.log }
  | .ok text, some path =>
    .ok { exit := 0, stderr := logged (outcome.log ++ [.wrote path]), file := some (path, text) }
  | .error failure, _ =>
    if isReported failure then
      .ok { exit := 1
            stderr := logged outcome.log ++ programName ++ ": " ++ failure.message ++ "\n" }
    else .error failure

/-- Why a run has no report. -/
inductive RunError where
  | file (error : FileError)
  | failure (failure : Failure)

/-- A run inside a folder: the report, and the folder after it. -/
def runIn (folder : Folder) (input : String) (words : List String) (tree : Concrete) :
    Except RunError (Report × Folder) :=
  match Request.ofWords words with
  | .error e => .ok (.ofUsageError e, folder)
  | .ok .help => .ok ({ exit := 0, stdout := helpText }, folder)
  | .ok (.run arguments) => do
    let source ← match arguments.inputPath? with
      | some path => (folder.read path >>= sourceText).mapError .file
      | none => .ok (String.ofList (Text.foldLineEnds input.toList))
    let result ← (report arguments source tree).mapError .failure
    match result.file with
    | some (path, text) => return (result, ← (folder.write path text).mapError .file)
    | none => return (result, folder)

end EcmaPhp.CommandLine
