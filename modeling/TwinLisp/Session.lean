import TwinLisp.Bytecode.Listing
import TwinLisp.Eval.Engine
import TwinLisp.Form.Read
import TwinLisp.Number.Power
/-!
What an interpreter does with source text. Forms are handled one at a time, so that a definition is
known to the forms after it; a failure of any phase ends the source and leaves what was done before.

* `Session.evalSource`: the value of the last form.
* `Session.parseSource`, `Session.compileSource`: the programs and the bytecode of all forms, without
  evaluation.
* `Session.listSource`: the listing of every form, each of which is evaluated after it is listed.
* `Session.start`: the outcome of an action and the state after it.
-/

namespace TwinLisp

/-- Actions that can fail in any phase. -/
abbrev Session := Act Failure

namespace Session

/-- More than any evaluation can use up in practice. -/
def ample : Nat := twoTo 60

def readSource (source : String) : Session (List Form) :=
  match Form.read source with
  | .ok forms => pure forms
  | .error e => Act.raise (.reader e)

def parseBy (E : Engine) (f : Form) : Session Expr :=
  Act.mapFault .parser (Expr.ofForm E.call f)

def parseForm (fuel : Nat) : Form → Session Expr := parseBy (Engine.ofFuel fuel)

/-- Interprets a form; compilation may have been allowed for the functions in it. -/
def interpret (E : Engine) (e : Expr) : Run Value := do
  (← State.prepared e).eval E none

/-- Reports that a form has no bytecode. -/
def reportFallback (e : CompileError) : Run Unit :=
  Act.update fun s =>
    if s.config.traced then
      { s with reports := ("[vm] fallback top-level: " ++ e.message) :: s.reports }
    else s

/-- The value of a form in the current mode. -/
def evalExpr (E : Engine) (e : Expr) : Run Value := do
  match ← Act.ask fun s => s.mode with
  | .treeWalk => e.eval E none
  | .hybrid => interpret E e
  | .bytecode =>
    if e.compilable then
      match Proto.ofExpr "top-level" e with
      | .ok p => Machine.onParked (Machine.executeFormBy E.cycle E.rounds p)
      | .error fault => do
        reportFallback fault
        interpret E e
    else interpret E e

def evalForm (E : Engine) (f : Form) : Session Value := do
  let e ← parseBy E f
  Act.mapFault .runtime (evalExpr E e)

def evalForms (E : Engine) (last : Value) : List Form → Session Value
  | [] => pure last
  | f :: rest => do evalForms E (← evalForm E f) rest

/-- The value of the last form of a source. -/
def evalSourceBy (E : Engine) (source : String) : Session Value := do
  evalForms E .nil (← readSource source)

def evalSource (fuel : Nat) : String → Session Value := evalSourceBy (Engine.ofFuel fuel)

/-- Parses forms behind those already parsed, which stand in reverse. -/
def parseForms (fuel : Nat) (acc : List Expr) : List Form → Session (List Expr)
  | [] => pure acc.reverse
  | f :: rest => do parseForms fuel ((← parseForm fuel f) :: acc) rest

def parseSource (fuel : Nat) (source : String) : Session (List Expr) := do
  parseForms fuel [] (← readSource source)

def compileForm (name : String) (e : Expr) : Session Proto :=
  match Proto.ofExpr name e with
  | .ok p => pure p
  | .error fault => Act.raise (.compile fault)

def compileSource (fuel : Nat) (source : String) : Session (List Proto) := do
  (← parseSource fuel source).mapM (compileForm "top-level")

/-- The listing of a form, or the reason why it has none. -/
def formListing (f : Form) (e : Expr) : List String :=
  match Proto.ofExpr "top-level" e with
  | .ok p => p.listing
  | .error fault => ["; " ++ f.text ++ " not compiled: " ++ fault.message]

/-- Lists and evaluates forms; lines already made stand in reverse. -/
def listForms (fuel : Nat) (acc : List String) : List Form → Session (List String)
  | [] => pure acc.reverse
  | f :: rest => do
    let e ← parseForm fuel f
    let lines := formListing f e
    discard (Act.mapFault Failure.runtime (evalExpr (Engine.ofFuel fuel) e))
    listForms fuel (lines.reverse ++ acc) rest

def listSource (fuel : Nat) (source : String) : Session (List String) := do
  listForms fuel [] (← readSource source)

/-- The outcome of an action and the state after it. -/
def start {α : Type} (a : Session α) (s : State) : Except Failure α × State :=
  match a s with
  | .ok x s => (.ok x, s)
  | .error (.raised e) s => (.error e, s)
  | .error .exhausted s => (.error .exhausted, s)

end Session

end TwinLisp
