import TwinLisp.Source.Span
import TwinLisp.Value.Basic
/-!
What can go wrong while a program runs. The text of a fault does not name its place: both engines
report the same text, while one of them knows only lines.
-/

namespace TwinLisp

/-- A fault of a running program. -/
inductive RuntimeFault where
  | wrongArity (name : String) (got : Nat)
  | notCallable (typeName : String)
  | divisionByZero
  | typeError (text : String)
  | unboundVar (name : String)
  | stackOverflow
  | stackUnderflow
  | frameOverflow (limit : Nat)
  | invalidOpcode (byte : UInt8)
  | stepBudgetExhausted (budget : Nat)
  | indexOutOfBounds (index : Int) (length : Nat)
  | thrown (text : String) (value : Value)
  | general (text : String)

abbrev RuntimeError := Located RuntimeFault

def RuntimeFault.text : RuntimeFault → String
  | wrongArity name got => "Wrong number of args (" ++ toString got ++ ") passed to " ++ name
  | notCallable t => t ++ " cannot be called as a function"
  | divisionByZero => "Division by zero"
  | typeError s => s
  | unboundVar name => "Unbound var: " ++ name
  | stackOverflow => "Stack overflow"
  | stackUnderflow => "Stack underflow"
  | frameOverflow limit => "Too many nested calls (limit " ++ toString limit ++ ")"
  | invalidOpcode b => "Unknown opcode " ++ toString b.toNat
  | stepBudgetExhausted n => "Step budget of " ++ toString n ++ " instructions exhausted"
  | indexOutOfBounds i n =>
    "Index " ++ toString i ++ " out of bounds for length " ++ toString n
  | thrown s _ => s
  | general s => s

def RuntimeError.message (e : RuntimeError) : String := e.cause.text

/-- A fault raised without a place. -/
def RuntimeFault.bare (f : RuntimeFault) : RuntimeError := ⟨f, .unknown⟩

end TwinLisp
