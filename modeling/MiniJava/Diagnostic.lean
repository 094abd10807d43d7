import MiniJava.Source.LineTable
import MiniJava.Source.Span

/-!
# Reports

Every phase has its own type of faults. What reaches the user is a `Diagnostic`:
the kind of fault, its wording, and the place it points at, if it has one.
-/

namespace MiniJava

/-- The part of the compiler that a report comes from. -/
inductive DiagnosticKind
  | scan
  | grammar
  | identification
  | typing
  | codegen
  | io
  deriving DecidableEq, Repr

namespace DiagnosticKind

/-- The heading under which a report of this kind is shown. -/
def heading : DiagnosticKind → String
  | scan => "Scan error"
  | grammar => "Syntax error"
  | identification => "Identification error"
  | typing => "Type error"
  | codegen => "Codegen error"
  | io => "I/O error"

/-- The short tag of this kind, used where a report has no source excerpt. -/
def tag : DiagnosticKind → String
  | scan => "scan"
  | grammar => "syntax"
  | identification => "identification"
  | typing => "type"
  | codegen => "codegen"
  | io => "io"

end DiagnosticKind

/-- One report: what went wrong and, where it is known, the source range. -/
structure Diagnostic where
  kind : DiagnosticKind
  text : String
  span : Option Span
  deriving DecidableEq, Repr

namespace Diagnostic

/-- The wording with its heading. -/
def message (d : Diagnostic) : String :=
  d.kind.heading ++ ": " ++ d.text

/-- The report as one line. A range that begins past the end of the source is
shown at the end. -/
def line (table : LineTable) (sourceSize : Nat) (d : Diagnostic) : String :=
  match d.span with
  | none => "*** " ++ d.message
  | some span =>
    -- Inside of a source, columns are far below the largest word.
    let p := table.place (min span.start sourceSize)
    s!"*** {p.line}:{p.column}: {d.message}"

/-- The tagged form of a report that has no source range to excerpt. -/
def tagged? (d : Diagnostic) : Option String :=
  match d.span with
  | none => some ("error[" ++ d.kind.tag ++ "]: " ++ d.text)
  | some _ => none

/-- All reports on a source, one line each, in order. -/
def lines (source : String) (ds : List Diagnostic) : List String :=
  ds.map (line (LineTable.ofSource source) source.utf8ByteSize)

end Diagnostic

end MiniJava
