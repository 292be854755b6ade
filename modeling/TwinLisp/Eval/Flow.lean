import TwinLisp.Bytecode.Eligible
import TwinLisp.Machine.Step
import TwinLisp.Native.Call
/-!
What evaluation answers and what it needs. An expression at the end of a body yields a value, or
asks for the body to be run again with new values in its frame.

* `Flow`: the two kinds of answers.
* `Locals`: how locals are kept; `Locals.framed` keeps them in frames, by depth and index.
* `Engine`: calls, late macro calls, single steps, and how often a loop may go round.
* `rounds`: a body that is run until it yields a value, each time in a frame of its own.
-/

namespace TwinLisp

inductive Flow where
  | value (v : Value)
  | again (values : List Value)

/-- How locals are kept, in scopes that have identities. There is none outside of all scopes. -/
structure Locals where
  /-- A scope inside another one, with names and their values. -/
  scope : Option Nat → List String → List Value → Run (Option Nat)
  /-- Adds a name and its value to a scope; where the name is known may be a scope of its own. -/
  bind : Option Nat → String → Value → Run (Option Nat)
  read : Binding → Span → Option Nat → Run Value
  write : Binding → Span → Option Nat → Value → Run Unit
  /-- What comes of new values for a body at a place where no body ends. -/
  stray : List Value → Span → Run Value

/-- What the evaluation of an expression needs of its surroundings. -/
structure Engine where
  call : Caller
  /-- A call of a macro that had no value when its form was parsed. -/
  late : Var → List Form → Span → Run Value
  /-- How a Var is given a value. -/
  assign : Var → Value → Run Unit
  /-- One instruction of the machine, given the calls that leave it. -/
  step : Caller → Nat → Run (Option Value)
  /-- How often a loop may go round, and how many instructions a run may take. -/
  rounds : Nat
  locals : Locals

/-- How the machine executes an instruction. -/
def Engine.cycle (E : Engine) : Nat → Run (Option Value) := E.step E.call

/-- The value of an expression that is not at the end of a body. -/
def Flow.toValue (L : Locals) (span : Span) : Flow → Run Value
  | value v => pure v
  | again values => L.stray values span

namespace Eval

/-- Runs a body until it yields a value. Every time it runs in a new scope, whose names have the same
values at first and then those it is run again with. -/
def rounds (L : Locals) (body : Option Nat → Run Flow) (parent : Option Nat) (names : List String)
    (first : List Value) : (limit : Nat) → (scope : Option Nat) → Run Value
  | 0, _ => Act.exhausted
  | limit + 1, scope => do
    match ← body scope with
    | .value v => pure v
    | .again values =>
      let scope ← L.scope parent names (first ++ values)
      rounds L body parent names first limit scope

def unboundLocal {α : Type} (b : Binding) (span : Span) : Run α :=
  Run.failAt (.general ("Unbound local: " ++ b.name)) span

def readLocal (b : Binding) (span : Span) (frame : Option Nat) : Run Value := do
  match frame with
  | none => unboundLocal b span
  | some id =>
    match ← Act.askStore (Store.local? id b) with
    | some v => pure v
    | none => unboundLocal b span

def writeLocal (b : Binding) (span : Span) (frame : Option Nat) (v : Value) : Run Unit := do
  match frame with
  | none => unboundLocal b span
  | some id =>
    match ← Act.askStore (Store.holder? id b) with
    | some a => Act.updateStore (Store.setSlot a b.index v)
    | none => unboundLocal b span

def pushLocal (frame : Option Nat) (v : Value) : Run (Option Nat) := do
  match frame with
  | none => return none
  | some id =>
    Act.updateStore (Store.pushSlot id v)
    return some id

end Eval

open Eval in
/-- Locals in frames. A scope is a frame, whose slots are in the order of its names; names play no
part any more. -/
def Locals.framed : Locals where
  scope parent _ values := do return some (← Run.newFrame parent values.toArray)
  bind frame _ v := pushLocal frame v
  read := readLocal
  write := writeLocal
  stray _ span := Run.failAt (.general "Can only recur from tail position") span

namespace Eval

/-- A function literal as a function: a compiled one if it has bytecode, or else an interpreted one
that remembers its frame. -/
def makeFunction (f : FnLiteral Expr) (frame : Option Nat) : Run Value := do
  match f.compiled with
  | some p => return .closure (← Act.onStore (Store.newClosure ⟨p, #[]⟩)) p.name
  | none => return .fn (← Act.onStore (Store.newFunction ⟨f, frame⟩)) f.displayName

/-- Throws a value, which must have been made to be thrown. -/
def throwValue (v : Value) (span : Span) : Run Value :=
  match v with
  | .exInfo _ message _ => Run.failAt (.thrown message v) span
  | _ => Run.failAt (.typeError ("Cannot throw " ++ v.typeName ++ ": use ex-info")) span

end Eval

/-- Whether a catch clause takes a fault. -/
def CatchClass.takes (c : CatchClass) (e : RuntimeError) : Bool :=
  match c, e.cause with
  | .any, _ => true
  | .exInfo, .thrown .. => true
  | .exInfo, _ => false

/-- What a catch clause binds: the value that was thrown, or a new one with the fault's message. -/
def Run.caughtValue (e : RuntimeError) : Run Value :=
  match e.cause with
  | .thrown _ v => pure v
  | _ => newExInfo e.message .nil

end TwinLisp
