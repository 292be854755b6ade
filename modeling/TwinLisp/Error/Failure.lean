import TwinLisp.Error.Program
import TwinLisp.Error.Reading
/-!
A failure of any phase, with its message and the exit status of a run that ends in it.
-/

namespace TwinLisp

/-- Why a source has no value. -/
inductive Failure where
  | lexer (e : LexError)
  | reader (e : ReadError)
  | parser (e : ParseError)
  | compile (e : CompileError)
  | runtime (e : RuntimeError)
  /-- The evaluation did not end within its fuel. -/
  | exhausted

namespace Failure

def message : Failure → String
  | lexer e => "Lexer error: " ++ e.message
  | reader e => "Reader error: " ++ e.message
  | parser e => "Parser error: " ++ e.message
  | compile e => "Compile error: " ++ e.message
  | runtime e => "Runtime error: " ++ e.message
  | exhausted => "Runtime error: evaluation did not end"

def span : Failure → Span
  | lexer e => e.span
  | reader e => e.span
  | parser e => e.span
  | compile e => e.span
  | runtime e => e.span
  | exhausted => .unknown

/-- 65 for bad input, 70 for a failure while compiling or running. -/
def exitCode : Failure → Nat
  | lexer _ | reader _ | parser _ => 65
  | compile _ | runtime _ | exhausted => 70

end Failure

end TwinLisp
