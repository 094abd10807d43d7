import MiniJava.CommandLine.Files
import MiniJava.CommandLine.Options
import MiniJava.Compiler

/-!
# A run of the command line

What the program prints and how it ends, for any arguments and any files. The
executable is written only if the source compiles.
-/

namespace MiniJava.CommandLine

/-- The end of a run. -/
structure Outcome where
  exitCode : UInt8
  stdout : String
  stderr : String
  deriving DecidableEq, Repr

/-- The text that names the program and its version. -/
def versionText : String := "minijavac 0.1.0\n"

/-- The text that explains the arguments. -/
def helpText : String :=
  "The miniJava compiler\n\n" ++
  "Usage: minijavac [OPTIONS] [FILE]\n\n" ++
  "Arguments:\n" ++
  "  [FILE]  Source file path\n\n" ++
  "Options:\n" ++
  "  -o, --output <OUTPUT>  Output executable path [default: a.out]\n" ++
  "      --pretty           Also render errors with source excerpts on stderr\n" ++
  "  -v, --verbose          Log compiler phases to stderr\n" ++
  "  -h, --help             Print help\n" ++
  "  -V, --version          Print version\n"

/-- Lines as a text. -/
def unlines (lines : List String) : String :=
  String.join (lines.map (· ++ "\n"))

/-- The outcome when there is something to report. With `--pretty`, reports
without a place in the source are also shown in their tagged form. -/
def failure (options : Options) (source : String) (ds : List Diagnostic) : Outcome where
  exitCode := 1
  stdout := unlines ("Error" :: Diagnostic.lines source ds)
  stderr := if options.isPretty then unlines (ds.filterMap Diagnostic.tagged?) else ""

/-- The report that a file cannot be used. -/
def fileDiagnostic (action path : String) (fault : FileFault) : Diagnostic :=
  ⟨.io, s!"failed to {action} {path}: {fault.message}", none⟩

variable {m : Type → Type} [Monad m]

/-- The text of a file. -/
def readText (files : Files m) (path : String) : m (Except FileFault String) := do
  match (← files.read path) with
  | .error fault => return .error fault
  | .ok bytes =>
    match String.fromUTF8? bytes with
    | some text => return .ok text
    | none => return .error .notText

/-- Compiles a file. -/
def compileFile (files : Files m) (options : Options) (path : String) : m Outcome := do
  match (← readText files path) with
  | .error fault => return failure options "" [fileDiagnostic "read" path fault]
  | .ok source =>
    match compile source with
    | .error ds => return failure options source ds
    | .ok image =>
      match (← files.writeExecutable options.output ⟨image.toArray⟩) with
      | .ok () => return ⟨0, "Success\n", ""⟩
      | .error fault =>
        return failure options source [fileDiagnostic "write" options.output fault]

/-- Runs the program with these arguments. -/
def run (files : Files m) (args : List String) : m Outcome :=
  match Request.ofArgs args with
  | .misuse => return ⟨2, "", "For more information, try '--help'.\n"⟩
  | .help => return ⟨0, helpText, ""⟩
  | .version => return ⟨0, versionText, ""⟩
  | .compile options =>
    match options.file? with
    | none => return ⟨1, "Error\n", ""⟩
    | some path => compileFile files options path

end MiniJava.CommandLine
