import MiniJava.Grammar.Program
import MiniJava.Identification.Body
import MiniJava.Lowering.Program
import MiniJava.Typing.Body

/-!
# The compiler

From source text to an executable image, or to the reports of the first phase
that finds fault. Reading reports invalid tokens and one fault of the grammar,
identification reports one fault, typing all of them, and code generation one.
-/

namespace MiniJava

/-- Compiles a source. -/
def compile (source : String) : Except (List Diagnostic) (List UInt8) := do
  let program ← parse source
  let table ← (identify program).mapError fun fault => [ScopeFault.diagnostic fault]
  match typeCheck table program with
  | [] => (generate table program).mapError fun e => [e.diagnostic]
  | faults => .error (faults.map TypeFault.diagnostic)

end MiniJava
