import TwinLisp.Error.Running
/-!
What can be wrong with well-formed data: it is no program, or the compiled subset has no room for
it. Every fault of the compiler can be recovered from by interpreting the form.
-/

namespace TwinLisp

/-- Data that is no program. -/
inductive ParseFault where
  | unexpectedForm (expected found : String)
  | unresolvedSymbol (name : String)
  | wrongArity (form : String) (got : Nat)
  | general (text : String)
  deriving DecidableEq, Repr

abbrev ParseError := Located ParseFault

/-- A program that has no bytecode. -/
inductive CompileFault where
  | tooManyConstants
  | tooManyLocals
  | tooManyUpvalues
  | tooManyArguments (count : Nat)
  | jumpTooLarge
  | recurOutsideLoop
  | recurArity (expected got : Nat)
  | unresolvedBinding (name : String)
  | unsupported (what : String)
  deriving DecidableEq, Repr

abbrev CompileError := Located CompileFault

def ParseFault.text : ParseFault → String
  | unexpectedForm expected found =>
    "Unexpected form '" ++ found ++ "', expected " ++ expected
  | unresolvedSymbol name => "Unable to resolve symbol: " ++ name ++ " in this context"
  | wrongArity form got => "Wrong number of args (" ++ toString got ++ ") passed to " ++ form
  | general s => s

def CompileFault.text : CompileFault → String
  | tooManyConstants => "too many constants"
  | tooManyLocals => "too many locals"
  | tooManyUpvalues => "too many upvalues"
  | tooManyArguments n => "too many arguments (" ++ toString n ++ ")"
  | jumpTooLarge => "jump too large"
  | recurOutsideLoop => "recur used outside of loop"
  | recurArity expected got =>
    "recur expects " ++ toString expected ++ " args, got " ++ toString got
  | unresolvedBinding name => "unresolved binding '" ++ name ++ "'"
  | unsupported what => what ++ " is not supported by the VM"

def ParseError.message (e : ParseError) : String := e.cause.text ++ " at " ++ e.span.text

def CompileError.message (e : CompileError) : String := e.cause.text ++ " at " ++ e.span.text

/-- A fault of a macro while it is expanded. -/
def ParseError.ofExpansion (e : RuntimeError) : ParseError :=
  ⟨.general ("Macro expansion failed: " ++ e.message), e.span⟩

end TwinLisp
