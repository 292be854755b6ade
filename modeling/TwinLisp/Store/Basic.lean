import TwinLisp.Expr.Basic
/-!
What the identities of values stand for. Vars, lexical frames, captured variables and functions are
kept in tables and are known by their position; nothing is ever removed, so an identity stays valid.

* `Definition`: the value of a Var, and whether it is a macro.
* `Frame`: slots of lexical variables, linked to the frame it was made in.
* `Cell`: a captured variable, which stands for a stack slot until it is closed.
-/

namespace TwinLisp

/-- What a Var holds; it is unbound until it is given a value. -/
structure Definition where
  value : Option Value
  isMacro : Bool
  deriving Inhabited

/-- A lexical frame; `depth` is the number of frames above it. -/
structure Frame where
  slots : Array Value
  parent : Option Nat
  depth : Nat
  deriving Inhabited

/-- A captured variable. -/
inductive Cell where
  /-- It lives in a slot of the machine's stack. -/
  | live (slot : Nat)
  | closed (v : Value)
  deriving Inhabited

/-- An interpreted function: a literal and the frame it was made in. -/
structure Function where
  literal : FnLiteral Expr
  frame : Option Nat

/-- A compiled function and the cells of the variables it captured. -/
structure Closure where
  proto : Proto
  cells : Array Nat
  deriving Inhabited

structure Store where
  vars : Array Definition
  frames : Array Frame
  cells : Array Cell
  functions : Array Function
  closures : Array Closure
  /-- The number of values made to be thrown. -/
  raised : Nat
  /-- The number of interpreters. -/
  owners : Nat

namespace Store

def empty : Store := ⟨#[], #[], #[], #[], #[], 0, 0⟩

/-! ## Vars -/

def newVar (ns name : String) (s : Store) : Var × Store :=
  (⟨s.vars.size, ns, name⟩, { s with vars := s.vars.push ⟨none, false⟩ })

def varValue? (v : Var) (s : Store) : Option Value :=
  match s.vars[v.id]? with
  | some d => d.value
  | none => none

def isMacro (v : Var) (s : Store) : Bool :=
  match s.vars[v.id]? with
  | some d => d.isMacro
  | none => false

def setVar (v : Var) (x : Value) (s : Store) : Store :=
  { s with vars := s.vars.modify v.id fun d => { d with value := some x } }

def setMacro (v : Var) (flag : Bool) (s : Store) : Store :=
  { s with vars := s.vars.modify v.id fun d => { d with isMacro := flag } }

/-! ## Functions and cells -/

def newFunction (f : Function) (s : Store) : Nat × Store :=
  (s.functions.size, { s with functions := s.functions.push f })

def newClosure (c : Closure) (s : Store) : Nat × Store :=
  (s.closures.size, { s with closures := s.closures.push c })

def newCell (c : Cell) (s : Store) : Nat × Store :=
  (s.cells.size, { s with cells := s.cells.push c })

def setCell (id : Nat) (c : Cell) (s : Store) : Store :=
  { s with cells := s.cells.setIfInBounds id c }

end Store

end TwinLisp
