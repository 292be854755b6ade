import TwinLisp.Eval.Flow
/-!
The evaluation of expressions, by recursion on the expression. Locals live in scopes: `let`, loops,
calls and catch clauses make one each, as the parser foresaw. Whatever is not a part of the
expression, such as the body of a called function, is left to the engine.

* `Expr.flow`: the answer of an expression at the end of a body.
* `Expr.eval`: the value of an expression.
-/

namespace TwinLisp

open Eval Machine

mutual

/-- The answer of an expression in a scope. -/
def Expr.flow (E : Engine) : Expr → Option Nat → Run Flow
  | .literal v _, _ | .quote v _, _ => return .value v
  | .localRef b span, env => return .value (← E.locals.read b span env)
  | .varRef v span, _ => return .value (← Run.deref v span)
  | .theVar v _, _ => return .value (.var v)
  | .vector items _, env => return .value (.vector (← valuesOnto E [] items env))
  | .set items span, env => do
    let items ← valuesOnto E [] items env
    return .value (← Act.within span (setOf items))
  | .map items span, env => do
    let items ← valuesOnto E [] items env
    return .value (← Act.within span (mapOf items))
  | .cond test yes no _, env => do
    if (← (← test.flow E env).toValue E.locals test.span).truthy then yes.flow E env
    else flowElse E no env
  | .block body _, env => flowBody E body env
  | .letIn bindings body _, env => do
    let scope ← bindAll E bindings (← E.locals.scope env [] [])
    flowBody E body scope
  | .loop bindings body _, env => do
    let scope ← bindAll E bindings (← E.locals.scope env [] [])
    return .value (← rounds E.locals (flowBody E body) env (bindings.map Bound.name) [] E.rounds scope)
  | .recur args _, env => return .again (← valuesOnto E [] args env)
  | .fn f _, env => return .value (← makeFunction f env)
  | .define v none _, _ => return .value (.var v)
  | .define v (some e) _, env => do
    let x ← (← e.flow E env).toValue E.locals e.span
    E.assign v x
    return .value (.var v)
  | .setLocal b e span, env => do
    let x ← (← e.flow E env).toValue E.locals e.span
    E.locals.write b span env x
    return .value x
  | .setVar v e _, env => do
    let x ← (← e.flow E env).toValue E.locals e.span
    E.assign v x
    return .value x
  | .call callee args span, env => do
    let f ← (← callee.flow E env).toValue E.locals callee.span
    let args ← valuesOnto E [] args env
    return .value (← Act.within span (E.call f args))
  | .throw e span, env => do
    let x ← (← e.flow E env).toValue E.locals e.span
    return .value (← throwValue x span)
  | .attempt body catches finish _, env => do
    let result ← Act.caught do
      match ← Act.caught (bodyValue E .nil body env) with
      | .ok v => pure v
      | .error e => handle E e catches env
    finishWith E finish env
    return .value (← Act.ofExcept result)
  | .macroCall v args span, _ => return .value (← E.late v args span)

/-- Values of expressions behind those already computed, which stand in reverse. -/
def valuesOnto (E : Engine) (acc : List Value) : List Expr → Option Nat → Run (List Value)
  | [], _ => return acc.reverse
  | e :: rest, env => do
    let v ← (← e.flow E env).toValue E.locals e.span
    valuesOnto E (v :: acc) rest env

/-- The answer of a body, which is that of its last expression. -/
def flowBody (E : Engine) : List Expr → Option Nat → Run Flow
  | [], _ => return .value .nil
  | [e], env => e.flow E env
  | e :: rest, env => do
    discard ((← e.flow E env).toValue E.locals e.span)
    flowBody E rest env

/-- The value of a body at whose end nothing can be run again. -/
def bodyValue (E : Engine) (last : Value) : List Expr → Option Nat → Run Value
  | [], _ => return last
  | e :: rest, env => do
    let v ← (← e.flow E env).toValue E.locals e.span
    bodyValue E v rest env

/-- The answer of the other branch. -/
def flowElse (E : Engine) : Option Expr → Option Nat → Run Flow
  | none, _ => return .value .nil
  | some e, env => e.flow E env

/-- Computes bindings in a scope and adds each to it. -/
def bindAll (E : Engine) : List (Bound Expr) → Option Nat → Run (Option Nat)
  | [], env => return env
  | ⟨name, init⟩ :: rest, env => do
    let v ← (← init.flow E env).toValue E.locals init.span
    bindAll E rest (← E.locals.bind env name v)

/-- Runs the first catch clause that takes a fault; without one the fault remains. -/
def handle (E : Engine) (e : RuntimeError) : List (CatchClause Expr) → Option Nat → Run Value
  | [], _ => Act.raise e
  | ⟨cls, name, body⟩ :: rest, env => do
    if cls.takes e then
      bodyValue E .nil body (← E.locals.scope env [name] [← Run.caughtValue e])
    else handle E e rest env

/-- Runs what a `try` ends with. -/
def finishWith (E : Engine) : Option (List Expr) → Option Nat → Run Unit
  | none, _ => return ()
  | some body, env => discard (bodyValue E .nil body env)

end

/-- The value of an expression in a scope. -/
def Expr.eval (E : Engine) (e : Expr) (env : Option Nat) : Run Value := do
  (← e.flow E env).toValue E.locals e.span

end TwinLisp
