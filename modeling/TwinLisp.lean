import TwinLisp.Main
import TwinLisp.Proofs.Bytecode.Prototypes
import TwinLisp.Proofs.Machine.Runs
import TwinLisp.Proofs.Machine.Survival
import TwinLisp.Proofs.Machine.Budget
import TwinLisp.Proofs.Machine.Heights
import TwinLisp.Proofs.Machine.Reentry
import TwinLisp.Proofs.Form.Grammar
import TwinLisp.Proofs.Value.ReadBack
import TwinLisp.Proofs.Bytecode.Binders
import TwinLisp.Proofs.Locals.Lexical
import TwinLisp.Proofs.Bytecode.Subset
import TwinLisp.Proofs.Value.Interchange
import TwinLisp.Proofs.Number.Wide
import TwinLisp.Proofs.Token.Steps
import TwinLisp.Proofs.Token.Tiling
import TwinLisp.Proofs.Token.Places
import TwinLisp.Proofs.Machine.Intrinsics
import TwinLisp.Proofs.Machine.Lasting
import TwinLisp.Proofs.Machine.Rebinding
import TwinLisp.Proofs.Locals.Iterations
import TwinLisp.Proofs.Macro.Choices
import TwinLisp.Proofs.Token.Escapes
import TwinLisp.Proofs.Token.Numbers
import TwinLisp.Proofs.Variables.Programs
import TwinLisp.Proofs.Names.Identity
import TwinLisp.Proofs.Names.Parts
import TwinLisp.Proofs.Gensym.Distinct
import TwinLisp.Proofs.Macro.Lengths
import TwinLisp.Proofs.Parsing.Failure
import TwinLisp.Proofs.Number.Division
import TwinLisp.Proofs.Bytecode.Encoding
import TwinLisp.Proofs.Machine.Decoding
import TwinLisp.Proofs.Native.Progression
import TwinLisp.Proofs.Parity.Agreement
import TwinLisp.Proofs.Number.ZeroDivisor
import TwinLisp.Proofs.Config.Limits
import TwinLisp.Proofs.Repl.Lines
