import MiniJava.CommandLine.Run
import MiniJava.Main
import MiniJava.Proofs.Machine.Decoding
import MiniJava.Proofs.Machine.Disassembly
import MiniJava.Proofs.Resolution.Agreement
import MiniJava.Proofs.Resolution.Lockstep
import MiniJava.Proofs.Resolution.Occurrences
import MiniJava.Proofs.Grammar.Owners
import MiniJava.Proofs.Lowering.Linking
import MiniJava.Proofs.Lowering.Totality
import MiniJava.Proofs.Machine.Execution
import MiniJava.Proofs.Semantics.Eval
import MiniJava.Proofs.Machine.Memory
import MiniJava.Proofs.Machine.View
import MiniJava.Proofs.Machine.Running
import MiniJava.Proofs.Machine.Printing
import MiniJava.Proofs.Semantics.Growth
import MiniJava.Proofs.Preservation.Size
import MiniJava.Proofs.Preservation.Words
import MiniJava.Proofs.Preservation.Operators
import MiniJava.Proofs.Lowering.Frames
import MiniJava.Proofs.Preservation.Frame
import MiniJava.Proofs.Preservation.Members
import MiniJava.Proofs.Preservation.Reference
import MiniJava.Proofs.Preservation.Heap
import MiniJava.Proofs.Preservation.Call
import MiniJava.Proofs.Preservation.Expr
import MiniJava.Proofs.Preservation.Stmt
import MiniJava.Proofs.Preservation.Method
import MiniJava.Proofs.Preservation.Process
import MiniJava.Proofs.Token.Tokens
import MiniJava.Proofs.Typing.Rules
import MiniJava.Proofs.Typing.Inference
import MiniJava.Proofs.Typing.Checked
import MiniJava.Proofs.Typing.Statements
import MiniJava.Proofs.Grammar.WrittenTypes
import MiniJava.Proofs.Grammar.Rules
import MiniJava.Proofs.Grammar.Streams
import MiniJava.Proofs.Lowering.Depth
import MiniJava.Proofs.Lowering.StackDiscipline
import MiniJava.Proofs.Lowering.Tracking
import MiniJava.Proofs.Scoping.Identified
import MiniJava.Proofs.Scoping.References
import MiniJava.Proofs.Scoping.Rules
import MiniJava.Proofs.Grammar.Reading
import MiniJava.Proofs.Grammar.Accepted
import MiniJava.Proofs.Grammar.Printer
import MiniJava.Proofs.Grammar.RoundTrip
import MiniJava.Proofs.Invariance.Order
import MiniJava.Proofs.Invariance.Renaming
import MiniJava.Proofs.Grammar.InvalidTokens
import MiniJava.Proofs.Invariance.RenamedSource
import MiniJava.Proofs.Layout.Compiled
import MiniJava.Proofs.Token.Lossless
import MiniJava.Proofs.Token.Gaps
import MiniJava.Proofs.Token.Comments
import MiniJava.Proofs.Token.MaximalMunch
import MiniJava.Proofs.Token.Histories
import MiniJava.Proofs.Token.Spelling
import MiniJava.Proofs.Lowering.Blocks
import MiniJava.Proofs.Lowering.CallingConvention
import MiniJava.Proofs.Machine.PrintedLine
import MiniJava.Proofs.Lowering.OnePass
import MiniJava.Proofs.Lowering.Unchecked
import MiniJava.Proofs.Positions.Exact
import MiniJava.Proofs.Grammar.FirstFault
import MiniJava.Proofs.Scoping.Redeclared
import MiniJava.Proofs.Lowering.Storage
import MiniJava.Proofs.Positions.Lines
import MiniJava.Proofs.Scoping.LexicalScopes
import MiniJava.Proofs.Typing.Modular
