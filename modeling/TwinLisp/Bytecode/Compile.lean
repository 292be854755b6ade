import TwinLisp.Bytecode.Builder
import TwinLisp.Expr.Basic
import TwinLisp.Names.Table
/-!
From programs to bytecode in one walk. Every expression leaves one value on the stack; locals are
stack slots, free names of nested functions are captured variables, global names are constants.

* `Build.byName`: a local is found by its name.
* `Expr.compile`: the code of an expression; it is told how locals are found.
* `Proto.ofExpr`, `Proto.ofFn`: a whole form, and a function literal that stands alone.
* `intrinsic?`: calls of core functions that are one instruction.
-/

namespace TwinLisp

/-- The instruction of a call to a core function with the operator's exact number of arguments. -/
def intrinsic? (callee : Expr) (count : Nat) : Option Opcode :=
  match callee with
  | .varRef v _ =>
    if v.ns ≠ coreNamespace then none
    else match v.name, count with
      | "+", 2 => some .add
      | "-", 2 => some .subtract
      | "*", 2 => some .multiply
      | "/", 2 => some .divide
      | "=", 2 => some .equal
      | "<", 2 => some .less
      | ">", 2 => some .greater
      | "-", 1 => some .negate
      | "not", 1 => some .not
      | _, _ => none
  | _ => none

namespace Build

/-- A constant; nil and booleans have instructions of their own. -/
def literal (v : Value) (span : Span) : Build Unit :=
  match v with
  | .nil => op .nil span
  | .bool true => op .true span
  | .bool false => op .false span
  | v => opConstant .const v span

/-- Gathers the values on top of the stack. -/
def collect (o : Opcode) (count : Nat) (span : Span) : Build Unit :=
  if count > 65535 then
    fail (.unsupported ("collection literal of " ++ toString count ++ " items")) span
  else opWord o count span

/-- How the running function reaches a local of the program. -/
abbrev Finder := Binding → Span → Build Access

/-- A local is found by its name. -/
def byName : Finder := fun b span => access b.name span

def readLocal (find : Finder) (b : Binding) (span : Span) : Build Unit := do
  match ← find b span with
  | .slot i => opByte .getLocal i span
  | .capture i => opByte .getUpvalue i span

def writeLocal (find : Finder) (b : Binding) (span : Span) : Build Unit := do
  match ← find b span with
  | .slot i => opByte .setLocal i span
  | .capture i => opByte .setUpvalue i span

/-- The target of a `recur` with a number of arguments. -/
def recurTarget (count : Nat) (span : Span) : Build RecurTarget := do
  match ← ask Level.target with
  | none => fail .recurOutsideLoop span
  | some t =>
    if count ≠ t.arity then fail (.recurArity t.arity count) span
    else if count > 255 ∨ t.firstSlot > 255 then fail .tooManyLocals span
    else pure t

/-- Rebinds the slots of the target and jumps back. -/
def recurTo (t : RecurTarget) (count : Nat) (span : Span) : Build Unit := do
  opByte .recur (UInt8.ofNat count) span
  byte (UInt8.ofNat t.firstSlot) span
  loopTo t.start span

/-- Calls what lies under its arguments. -/
def call (count : Nat) (span : Span) : Build Unit :=
  if count > 255 then fail (.tooManyArguments count) span
  else opByte .call (UInt8.ofNat count) span

/-- Sets the number of parameters of the function being built. -/
def setArity (count : Nat) (span : Span) : Build Unit :=
  if count > 255 then fail .tooManyLocals span
  else onLevel fun l => { l with arity := count }

/-- The beginning of a function: its parameters are locals, its body is a target of `recur`. -/
def parameters (params : List String) (span : Span) : Build Unit := do
  setArity params.length span
  declareParams span params
  setTarget (some ⟨0, 1, params.length⟩)

end Build

open Build

mutual

/-- The code of an expression, which leaves exactly one value. -/
def Expr.compile (find : Finder) : Expr → Build Unit
  | .literal v span | .quote v span => leavingOne (literal v span)
  | .vector items span => leavingOne do
    compileAll find items
    collect .vector items.length span
  | .set items span => leavingOne do
    compileAll find items
    collect .set items.length span
  | .map items span => leavingOne do
    compileAll find items
    collect .map (items.length / 2) span
  | .localRef b span => leavingOne (readLocal find b span)
  | .varRef v span => leavingOne (opConstant .getVar (.var v) span)
  | .theVar v span => leavingOne (opConstant .const (.var v) span)
  | .cond test yes no span => leavingOne do
    test.compile find
    let toElse ← jump .jumpIfFalse span
    dropped
    yes.compile find
    let toEnd ← jump .jump span
    land toElse
    dropped
    compileElse find span no
    land toEnd
  | .block body span => leavingOne (compileBody find span body)
  | .letIn bindings body span => leavingOne do
    openScope
    compileBindings find bindings
    compileBody find span body
    closeScope span
  | .loop bindings body span => leavingOne do
    openScope
    let firstSlot ← ask Level.height
    compileBindings find bindings
    let start ← ask fun l => l.chunk.size
    let outer ← ask Level.target
    setTarget (some ⟨start, firstSlot, bindings.length⟩)
    compileBody find span body
    setTarget outer
    closeScope span
  | .recur args span => leavingOne do
    let target ← recurTarget args.length span
    compileAll find args
    recurTo target args.length span
  | .fn ⟨name, arities, fspan, _⟩ span => leavingOne do
    enter (name.getD "fn") (name.getD "")
    compileArities find fspan arities
    closure (← leave) span
  | .define v none span => leavingOne (opConstant .const (.var v) span)
  | .define v (some value) span => leavingOne do
    value.compile find
    opConstant .setVar (.var v) span
    op .pop span
    dropped
    opConstant .const (.var v) span
  | .setLocal b value span => leavingOne do
    value.compile find
    writeLocal find b span
  | .setVar v value span => leavingOne do
    value.compile find
    opConstant .setVar (.var v) span
  | .call callee args span => leavingOne do
    match intrinsic? callee args.length with
    | some o =>
      compileAll find args
      op o span
    | none =>
      callee.compile find
      compileAll find args
      call args.length span
  | .throw _ span => fail (.unsupported "throw") span
  | .attempt _ _ _ span => fail (.unsupported "try") span
  | .macroCall v _ span => fail (.unsupported ("late-bound macro " ++ v.qualified)) span

/-- The code of expressions one after the other. -/
def compileAll (find : Finder) : List Expr → Build Unit
  | [] => pure ()
  | e :: rest => do
    e.compile find
    compileAll find rest

/-- The code of a body: the last value is kept, the others are dropped; without any it is nil. -/
def compileBody (find : Finder) (span : Span) : List Expr → Build Unit
  | [] => op .nil span
  | [e] => e.compile find
  | e :: rest => do
    e.compile find
    op .pop e.span
    dropped
    compileBody find span rest

/-- The code of bindings: each value becomes a local as soon as it is computed. -/
def compileBindings (find : Finder) : List (Bound Expr) → Build Unit
  | [] => pure ()
  | ⟨name, init⟩ :: rest => do
    init.compile find
    declare name init.span
    compileBindings find rest

/-- The code of the other branch. -/
def compileElse (find : Finder) (span : Span) : Option Expr → Build Unit
  | none => op .nil span
  | some e => e.compile find

/-- The code of a function, which must have a single arity with a fixed number of parameters. -/
def compileArities (find : Finder) (span : Span) : List (Arity Expr) → Build Unit
  | [⟨params, false, body⟩] => do
    parameters params span
    compileBody find span body
    op .ret span
  | [⟨_, true, _⟩] => fail (.unsupported "variadic fn") span
  | _ => fail (.unsupported "multi-arity fn") span

end

namespace Proto

/-- A whole form as a function without parameters. -/
def ofExprBy (find : Finder) (name : String) (e : Expr) : Except CompileError Proto := do
  let step : Build Proto := do
    e.compile find
    op .ret e.span
    ask Level.finish
  step.run' ⟨Level.start name "", []⟩

def ofExpr (name : String) (e : Expr) : Except CompileError Proto := ofExprBy byName name e

/-- A function literal that stands alone; it fails where the literal has a free local name. -/
def ofFnBy (find : Finder) (f : FnLiteral Expr) : Except CompileError Proto := do
  let step : Build Proto := do
    compileArities find f.span f.arities
    ask Level.finish
  step.run' ⟨Level.start f.displayName (f.name.getD ""), []⟩

def ofFn (f : FnLiteral Expr) : Except CompileError Proto := ofFnBy byName f

end Proto

end TwinLisp
