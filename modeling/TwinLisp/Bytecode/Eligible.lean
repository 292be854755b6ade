import TwinLisp.Bytecode.Compile
/-!
The compiled subset and the pass that compiles it. A function literal that fits the subset and has
no free local names gets its bytecode stored beside it, and evaluating the literal then makes a
compiled function. A literal that does not fit stays interpreted, and the literals inside it are
tried in turn.

* `Expr.compilable`: every part of the expression belongs to the subset.
* `Expr.annotate`: stores the bytecode of every literal that has one, and tells what it did.
-/

namespace TwinLisp

mutual

/-- Whether every part of the expression belongs to the compiled subset. -/
def Expr.compilable : Expr → Bool
  | .literal .. | .quote .. | .localRef .. | .varRef .. | .theVar .. => true
  | .vector items _ | .map items _ | .set items _ | .block items _ | .recur items _ =>
    allCompilable items
  | .cond test yes no _ => test.compilable && yes.compilable && noneOrCompilable no
  | .letIn bindings body _ | .loop bindings body _ =>
    bindingsCompilable bindings && allCompilable body
  | .fn ⟨_, arities, _, _⟩ _ => aritiesCompilable arities
  | .define _ value _ => noneOrCompilable value
  | .setLocal _ value _ | .setVar _ value _ => value.compilable
  | .call callee args _ => callee.compilable && allCompilable args
  | .throw .. | .attempt .. | .macroCall .. => false

def allCompilable : List Expr → Bool
  | [] => true
  | e :: rest => e.compilable && allCompilable rest

def noneOrCompilable : Option Expr → Bool
  | none => true
  | some e => e.compilable

def bindingsCompilable : List (Bound Expr) → Bool
  | [] => true
  | ⟨_, init⟩ :: rest => init.compilable && bindingsCompilable rest

/-- A single arity with a fixed number of parameters and a body in the subset. -/
def aritiesCompilable : List (Arity Expr) → Bool
  | [⟨_, variadic, body⟩] => !variadic && allCompilable body
  | _ => false

end

/-- Whether a function literal belongs to the compiled subset. -/
def FnLiteral.compilable (f : FnLiteral Expr) : Bool := aritiesCompilable f.arities

/-- A pass that tells what it does; the latest line stands first. -/
abbrev Traced := StateM (List String)

def Traced.tell (line : String) : Traced Unit := modify (line :: ·)

/-- The bytecode of a function literal, if it has any. -/
def FnLiteral.bytecode? (f : FnLiteral Expr) : Traced (Option Proto) := do
  if f.compiled.isSome then return f.compiled
  if !f.compilable then
    Traced.tell ("[vm] fallback " ++ f.displayName ++ ": not in the compiled subset")
    return none
  match Proto.ofFn f with
  | .ok p =>
    Traced.tell ("[vm] compiled " ++ f.displayName)
    return some p
  | .error e =>
    Traced.tell ("[vm] fallback " ++ f.displayName ++ ": " ++ e.message)
    return none

mutual

/-- Stores the bytecode of every function literal that has one; compiled literals are not entered,
what is inside them being compiled with them. -/
def Expr.annotate : Expr → Traced Expr
  | .vector items span => return .vector (← annotateOnto [] items) span
  | .map items span => return .map (← annotateOnto [] items) span
  | .set items span => return .set (← annotateOnto [] items) span
  | .cond test yes no span => do
    let test ← test.annotate
    let yes ← yes.annotate
    return .cond test yes (← annotateOption no) span
  | .block body span => return .block (← annotateOnto [] body) span
  | .letIn bindings body span => do
    let bindings ← annotateBindings bindings
    return .letIn bindings (← annotateOnto [] body) span
  | .loop bindings body span => do
    let bindings ← annotateBindings bindings
    return .loop bindings (← annotateOnto [] body) span
  | .recur args span => return .recur (← annotateOnto [] args) span
  | .fn ⟨name, arities, fspan, compiled⟩ span => do
    match ← FnLiteral.bytecode? ⟨name, arities, fspan, compiled⟩ with
    | some p => return .fn ⟨name, arities, fspan, some p⟩ span
    | none => return .fn ⟨name, ← annotateArities arities, fspan, none⟩ span
  | .define v value span => return .define v (← annotateOption value) span
  | .setLocal b value span => return .setLocal b (← value.annotate) span
  | .setVar v value span => return .setVar v (← value.annotate) span
  | .call callee args span => do
    let callee ← callee.annotate
    return .call callee (← annotateOnto [] args) span
  | .throw value span => return .throw (← value.annotate) span
  | .attempt body catches finish span => do
    let body ← annotateOnto [] body
    let catches ← annotateCatches catches
    return .attempt body catches (← annotateBody finish) span
  | .literal v span => return .literal v span
  | .quote v span => return .quote v span
  | .localRef b span => return .localRef b span
  | .varRef v span => return .varRef v span
  | .theVar v span => return .theVar v span
  | .macroCall v args span => return .macroCall v args span

/-- Treats expressions behind those already treated, which stand in reverse. -/
def annotateOnto (acc : List Expr) : List Expr → Traced (List Expr)
  | [] => return acc.reverse
  | e :: rest => do annotateOnto ((← e.annotate) :: acc) rest

def annotateOption : Option Expr → Traced (Option Expr)
  | none => return none
  | some e => return some (← e.annotate)

def annotateBody : Option (List Expr) → Traced (Option (List Expr))
  | none => return none
  | some body => return some (← annotateOnto [] body)

def annotateBindings : List (Bound Expr) → Traced (List (Bound Expr))
  | [] => return []
  | ⟨name, init⟩ :: rest => do
    let init ← init.annotate
    return ⟨name, init⟩ :: (← annotateBindings rest)

def annotateArities : List (Arity Expr) → Traced (List (Arity Expr))
  | [] => return []
  | ⟨params, variadic, body⟩ :: rest => do
    let body ← annotateOnto [] body
    return ⟨params, variadic, body⟩ :: (← annotateArities rest)

def annotateCatches : List (CatchClause Expr) → Traced (List (CatchClause Expr))
  | [] => return []
  | ⟨cls, name, body⟩ :: rest => do
    let body ← annotateOnto [] body
    return ⟨cls, name, body⟩ :: (← annotateCatches rest)

end

end TwinLisp
