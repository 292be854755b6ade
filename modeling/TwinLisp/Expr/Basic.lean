import TwinLisp.Bytecode.Chunk
import TwinLisp.Form.Basic
/-!
Programs. An expression knows the place it was written at, and its names are resolved: a local name
is a slot of the frame at some depth, a global name is a Var.

* `FnLiteral`: a function literal with its arities; `compiled` holds its bytecode once the literal
  has been found to fit the compiled subset.
* `FnLiteral.arityFor?`: the arity that takes a number of arguments.
-/

namespace TwinLisp

/-- A local name: slot `index` of the frame at depth `frame`. -/
structure Binding where
  name : String
  frame : Nat
  index : Nat
  deriving DecidableEq, Repr, Inhabited

/-- A name and what it is bound to. -/
structure Bound (ε : Type) where
  name : String
  init : ε

/-- One arity of a function; if it is variadic its last parameter takes the list of the rest. -/
structure Arity (ε : Type) where
  params : List String
  variadic : Bool
  body : List ε

/-- The number of arguments that an arity requires. -/
def Arity.required {ε : Type} (a : Arity ε) : Nat :=
  if a.variadic then a.params.length - 1 else a.params.length

structure FnLiteral (ε : Type) where
  name : Option String
  arities : List (Arity ε)
  span : Span
  compiled : Option Proto

def FnLiteral.displayName {ε : Type} (f : FnLiteral ε) : String := f.name.getD "fn"

/-- The arity for a number of arguments: one with exactly so many parameters first, then a variadic
one. -/
def FnLiteral.arityFor? {ε : Type} (f : FnLiteral ε) (count : Nat) : Option (Arity ε) :=
  match f.arities.find? fun a => !a.variadic && a.params.length == count with
  | some a => some a
  | none => f.arities.find? fun a => a.variadic && count + 1 ≥ a.params.length

/-- What a catch clause takes: every error of a running program, or thrown values only. -/
inductive CatchClass where
  | any
  | exInfo
  deriving DecidableEq, Repr

structure CatchClause (ε : Type) where
  cls : CatchClass
  name : String
  body : List ε

inductive Expr where
  | literal (v : Value) (span : Span)
  | quote (v : Value) (span : Span)
  | vector (items : List Expr) (span : Span)
  /-- Keys and values alternate. -/
  | map (items : List Expr) (span : Span)
  | set (items : List Expr) (span : Span)
  | localRef (b : Binding) (span : Span)
  | varRef (v : Var) (span : Span)
  | theVar (v : Var) (span : Span)
  | cond (test yes : Expr) (no : Option Expr) (span : Span)
  | block (body : List Expr) (span : Span)
  | letIn (bindings : List (Bound Expr)) (body : List Expr) (span : Span)
  | loop (bindings : List (Bound Expr)) (body : List Expr) (span : Span)
  | recur (args : List Expr) (span : Span)
  | fn (f : FnLiteral Expr) (span : Span)
  | define (v : Var) (value : Option Expr) (span : Span)
  | setLocal (b : Binding) (value : Expr) (span : Span)
  | setVar (v : Var) (value : Expr) (span : Span)
  | call (callee : Expr) (args : List Expr) (span : Span)
  | throw (value : Expr) (span : Span)
  | attempt (body : List Expr) (catches : List (CatchClause Expr)) (finish : Option (List Expr))
      (span : Span)
  /-- A call of a macro that had no value when the form was parsed. -/
  | macroCall (v : Var) (args : List Form) (span : Span)

def Expr.span : Expr → Span
  | literal _ s | quote _ s | vector _ s | map _ s | set _ s | localRef _ s | varRef _ s
  | theVar _ s | cond _ _ _ s | block _ s | letIn _ _ s | loop _ _ s | recur _ s | fn _ s
  | define _ _ s | setLocal _ _ s | setVar _ _ s | call _ _ s | throw _ s | attempt _ _ _ s
  | macroCall _ _ s => s

end TwinLisp
