import TwinLisp.Eval.Expr
import TwinLisp.Expr.OfForm
/-!
Calls of every kind of value, and the engine that ties evaluation, the machine, natives and macros
together. Each nested call uses an engine of one level less, so evaluation ends at level zero at the
latest; no result but `exhausted` depends on the level.

* `Value.apply`: the call of a value.
* `Engine.equipped`, `Engine.ofFuel`: the engine of a level.
* `State.prepared`: a form with the bytecode of its function literals.
-/

namespace TwinLisp

open Run (fail)

namespace Eval

/-- The slots of a call: the function, its parameters, and the list of the rest. -/
def callSlots (self : Value) (a : Arity Expr) (args : List Value) : List Value :=
  if a.variadic then
    let more := args.drop a.required
    self :: args.take a.required ++ [if more.isEmpty then .nil else .list more]
  else self :: args

/-- Runs an interpreted function. The call is counted until its body has ended in any way. -/
def callFunction (E : Engine) (id : Nat) (name : String) (args : List Value) : Run Value := do
  match ← Act.askStore fun s => s.functions[id]? with
  | none => fail (.general ("Unknown function " ++ toString id))
  | some f =>
    match f.literal.arityFor? args.length with
    | none => fail (.wrongArity name args.length)
    | some a =>
      Run.enter f.literal.span
      Act.ending (do
        let self := Value.fn id name
        let names := f.literal.name.getD "" :: a.params
        let scope ← E.locals.scope f.frame names (callSlots self a args)
        rounds E.locals (flowBody E a.body) f.frame names [self] E.rounds scope)
        fun s => { s with depth := s.depth - 1 }

/-- The fault of a collection or keyword that is called with a number of arguments it does not
take. -/
def misused (f : Value) (args : List Value) : Run Value :=
  fail (.wrongArity f.readable args.length)

/-- A vector is called with an index. -/
def callVector (items : List Value) (args : List Value) : Run Value :=
  match args with
  | [.int i] =>
    match Answer.at? items i with
    | some v => pure v
    | none => Run.ofFault (Answer.outOfBounds i items.length)
  | [v] => fail (.typeError ("Key must be integer, got " ++ v.typeName))
  | _ => misused (.vector items) args

end Eval

open Eval in
/-- The call of a value with arguments. -/
def Value.apply (E : Engine) (f : Value) (args : List Value) : Run Value :=
  match f with
  | .fn id name => callFunction E id name args
  | .closure id _ => Machine.onParked (Machine.executeBy E.cycle E.rounds id args)
  | .native _ op => op.call E.call args
  | .keyword _ =>
    match args with
    | [target] => pure (Answer.lookup target f .nil)
    | [target, default] => pure (Answer.lookup target f default)
    | _ => misused f args
  | .map _ =>
    match args with
    | [key] => pure (Answer.lookup f key .nil)
    | [key, default] => pure (Answer.lookup f key default)
    | _ => misused f args
  | .set items =>
    match args with
    | [x] => pure (if Value.has x items then x else .nil)
    | _ => misused f args
  | .vector items => callVector items args
  | .var v => do E.call (← Run.deref v .unknown) args
  | _ => fail (.notCallable f.typeName)

namespace State

/-- Stores the bytecode of the function literals of a form, if compilation is enabled. -/
def prepared {ε : Type} (e : Expr) : Act ε Expr := fun s =>
  if s.config.vmEnabled then
    let (e, lines) := (Expr.annotate e).run []
    .ok e (if s.config.traced then { s with reports := lines ++ s.reports } else s)
  else .ok e s

end State

namespace Engine

/-- Expands and evaluates a call of a macro that had no value when its form was parsed. -/
def lateCall (E : Engine) (v : Var) (args : List Form) (span : Span) : Run Value := do
  let f ← Run.deref v span
  let expansion ← Macro.expandUser E.call f args span
  let e ← Act.mapFault (fun e : ParseError => ⟨.general e.message, span⟩)
    (Expr.ofForm E.call expansion)
  let mode ← Act.ask fun s => s.mode
  let e ← if mode = .treeWalk then pure e else State.prepared e
  e.eval E none

/-- The engine of a level, with some way to keep locals, to give a Var its value and to execute an
instruction. -/
def built (locals : Locals) (assign : Var → Value → Run Unit)
    (step : Caller → Nat → Run (Option Value)) : (level : Nat) → Engine
  | 0 => ⟨fun _ _ => Act.exhausted, fun _ _ _ => Act.exhausted, assign, step, 0, locals⟩
  | level + 1 =>
    ⟨fun f args s => f.apply (built locals assign step level) args s,
      fun v args span s => (built locals assign step level).lateCall v args span s, assign, step,
      level, locals⟩

/-- The engine of a level, with some way to give a Var its value and some way to execute an
instruction. -/
def equipped : (assign : Var → Value → Run Unit) → (step : Caller → Nat → Run (Option Value)) →
    (level : Nat) → Engine := built .framed

/-- The engine of a level. -/
def ofFuel : (level : Nat) → Engine := equipped Run.assign Machine.step

section Over

variable (locals : Locals) (assign : Var → Value → Run Unit)
  (step : Caller → Nat → Run (Option Value)) (level : Nat)

@[simp] theorem locals_built : (built locals assign step level).locals = locals := by
  cases level <;> rfl

@[simp] theorem rounds_built : (built locals assign step level).rounds = level - 1 := by
  cases level <;> rfl

@[simp] theorem cycle_built :
    (built locals assign step level).cycle = step (built locals assign step level).call := by
  cases level <;> rfl

@[simp] theorem rounds_equipped : (equipped assign step level).rounds = level - 1 :=
  rounds_built ..

@[simp] theorem cycle_equipped :
    (equipped assign step level).cycle = step (equipped assign step level).call := cycle_built ..

end Over

end Engine

end TwinLisp
