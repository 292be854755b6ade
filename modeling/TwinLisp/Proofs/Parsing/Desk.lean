import TwinLisp.Expr.OfForm
import TwinLisp.Native.Call

/-! A parser at its desk. The parser of `Expr.OfForm` is given the scopes around a form, and its levels
bound the expansions. Here scopes are pushed on a stack and popped, expansions under way are counted, and
nothing but fuel bounds the recursion; the desk also keeps a record of what the parser came upon.

* `Desk`: the stack, the count, and the record.
* `Desk.Act.inside`, `Desk.Act.expanding`: a part inside a scope, and an expansion.
* `Form.track`: the expression of a form, given a parser for what macros yield.
* `Expr.trackAt`: the parser with some fuel. -/

namespace TwinLisp

/-- A call of a macro of the program. -/
structure MacroCall where
  f : Value
  args : List Value
  state : State

/-- What a parser has before it: the scopes around the form, the number of expansions under way and the
greatest number of them so far, the macros of the program it called, and the Vars it marked as macros,
the latest first. -/
structure Desk where
  scopes : Scopes
  nested : Nat
  deepest : Nat
  called : List MacroCall
  marked : List Var

namespace Desk

/-- The desk at which a whole form is parsed. -/
def clear : Desk := ⟨[], 0, 0, [], []⟩

/-- Actions of a parser at its desk. -/
abbrev Act := EStateM (Stop ParseError) (Desk × State)

namespace Act

variable {α : Type}

/-- An action that leaves the desk alone. -/
def lift (a : Parse α) : Act α := fun q =>
  match a q.2 with
  | .ok x s => .ok x (q.1, s)
  | .error e s => .error e (q.1, s)

def ask (f : Desk → α) : Act α := fun q => .ok (f q.1) q

def update (f : Desk → Desk) : Act Unit := fun q => .ok () (f q.1, q.2)

/-- Changes the desk whether or not the action has a value. -/
def ending (a : Act α) (change : Desk → Desk) : Act α := fun q =>
  match a q with
  | .ok x q => .ok x (change q.1, q.2)
  | .error e q => .error e (change q.1, q.2)

def inside (names : List String) (a : Act α) : Act α := do
  update fun d => { d with scopes := names :: d.scopes }
  ending a fun d => { d with scopes := d.scopes.tail }

def declare (name : String) : Act Unit := update fun d => { d with scopes := d.scopes.declare name }

/-- An expansion within those under way, unless they are too many. -/
def expanding (place : Span) (a : Act α) : Act α := do
  if maxExpansions ≤ (← ask Desk.nested) then lift (Parse.fail "Macro expansion too deep" place)
  else
    update fun d => { d with nested := d.nested + 1, deepest := max d.deepest (d.nested + 1) }
    ending a fun d => { d with nested := d.nested - 1 }

def mark (v : Var) : Act Unit := do
  update fun d => { d with marked := v :: d.marked }
  lift (TwinLisp.Act.updateStore (Store.setMacro v true))

/-- What a macro of the program yields. -/
def expandUser (call : Caller) (f : Value) (args : List Form) (span : Span) : Act Form := do
  fun q => .ok () ({ q.1 with called := ⟨f, Form.toValues args, q.2⟩ :: q.1.called }, q.2)
  lift (TwinLisp.Act.mapFault ParseError.ofExpansion (Macro.expandUser call f args span))

end Act

/-- What parsing needs of its surroundings: a parser for what macros yield, and calls. -/
structure Expansion where
  parse : Form → Position → Act Expr
  call : Caller

namespace Expansion

/-- A call whose head is a name: a macro of the language, a macro of the program, or no macro. -/
def rewrite? (x : Expansion) (form : Form) (name : String) (args : List Form) (p : Position) :
    Act (Option Expr) := do
  if ((← Act.ask Desk.scopes).find? name).isSome then return none
  if let some expansion ← Act.lift (Macro.expandBuiltin form) then
    return some (← Act.expanding expansion.span (x.parse expansion p))
  let some v ← Act.lift (TwinLisp.Act.resolve? name) | return none
  unless ← Act.lift (TwinLisp.Act.askStore (Store.isMacro v)) do return none
  match ← Act.lift (TwinLisp.Act.askStore (Store.varValue? v)) with
  | none => return some (.macroCall v args form.span)
  | some f =>
    let expansion ← Act.expandUser x.call f args form.span
    return some (← Act.expanding expansion.span (x.parse expansion p))

end Expansion

end Desk

open Parse

mutual

/-- The expression of a form where it stands. -/
def Form.track (x : Desk.Expansion) : Form → Position → Desk.Act Expr
  | .atom v span, _ => pure (.literal v span)
  | .symbol name span, _ => do .lift (reference (← .ask Desk.scopes) name span)
  | .vector items span, p => do
    return .vector (← trackOnto x [] items p.nonTail) span
  | .set items span, p => do
    let items ← trackOnto x [] items p.nonTail
    .lift (distinct items span)
    return .set items span
  | .map items span, p => do
    let items ← trackOnto x [] items p.nonTail
    .lift (distinct (everyOther items) span)
    return .map items span
  | .list [] span, _ => pure (.literal (.list []) span)
  | .list (head :: args) span, p =>
    match Special.ofForm? head with
    | some .quote =>
      match args with
      | [f] => pure (.quote f.toValue span)
      | _ => .lift (wrongArity "quote" args.length span)
    | some .cond =>
      match args with
      | [test, yes] => do
        let test ← test.track x p.nonTail
        return .cond test (← yes.track x p) none span
      | [test, yes, no] => do
        let test ← test.track x p.nonTail
        let yes ← yes.track x p
        return .cond test yes (some (← no.track x p)) span
      | _ => .lift (wrongArity "if" args.length span)
    | some .block => return .block (← trackBody x [] args p) span
    | some .letIn =>
      match args with
      | .vector pairs _ :: body => do
        if pairs.length % 2 ≠ 0 then
          .lift (fail "let requires an even number of forms in binding vector" span)
        .inside [] do
          let bindings ← trackBindings x [] pairs p.nonTail
          return .letIn bindings (← trackBody x [] body p) span
      | _ => .lift (fail "let requires a vector for its binding" span)
    | some .loop =>
      match args with
      | .vector pairs _ :: body => do
        if pairs.length % 2 ≠ 0 then
          .lift (fail "loop requires an even number of forms in binding vector" span)
        .inside [] do
          let bindings ← trackBindings x [] pairs p.nonTail
          return .loop bindings (← trackBody x [] body (.body bindings.length)) span
      | _ => .lift (fail "loop requires a vector for its binding" span)
    | some .recur => do
      .lift (checkRecur p args.length span)
      return .recur (← trackOnto x [] args p.nonTail) span
    | some .fn =>
      match args with
      | .symbol name _ :: rest => return .fn (← trackFn x (some name) span rest) span
      | [] => return .fn (← trackFn x none span []) span
      | first :: rest => return .fn (← trackFn x none span (first :: rest)) span
    | some .define =>
      match args with
      | [name] => do
        return .define (← .lift (definedVar name)) none span
      | [name, value] => do
        let v ← .lift (definedVar name)
        return .define v (some (← value.track x p.nonTail)) span
      | [name, _, value] => do
        let v ← .lift (definedVar name)
        return .define v (some (← value.track x p.nonTail)) span
      | _ => .lift (wrongArity "def" args.length span)
    | some .assign =>
      match args with
      | [target, value] => do
        let name ← .lift (symbolName "symbol" target)
        let value ← value.track x p.nonTail
        .lift (assignment (← .ask Desk.scopes) name target.span value span)
      | _ => .lift (wrongArity "set!" args.length span)
    | some .theVar =>
      match args with
      | [f] => .lift (theVar f span)
      | _ => .lift (wrongArity "var" args.length span)
    | some .throw =>
      match args with
      | [value] => return .throw (← value.track x p.nonTail) span
      | _ => .lift (wrongArity "throw" args.length span)
    | some .attempt => do
      let (catches, finish) ← trackClauses x [] none args
      return .attempt (← trackTried x [] args) catches finish span
    | some .defineMacro =>
      match args with
      | name :: .atom (.str _) _ :: first :: rest => do
        let v ← .lift (definedVar name)
        .mark v
        return .define v (some (.fn (← trackFn x name.symbol? span (first :: rest)) span)) span
      | name :: first :: rest => do
        let v ← .lift (definedVar name)
        .mark v
        return .define v (some (.fn (← trackFn x name.symbol? span (first :: rest)) span)) span
      | _ => .lift (wrongArity "defmacro" args.length span)
    | none => do
      if let some name := head.symbol? then
        if let some e ← x.rewrite? (.list (head :: args) span) name args p then
          return e
      let callee ← head.track x p.nonTail
      return .call callee (← trackOnto x [] args p.nonTail) span

/-- Parses forms behind those already parsed, which stand in reverse. -/
def trackOnto (x : Desk.Expansion) (acc : List Expr) : List Form → Position → Desk.Act (List Expr)
  | [], _ => pure acc.reverse
  | f :: rest, p => do trackOnto x ((← f.track x p) :: acc) rest p

/-- Parses a body: only its last form stands where the body stands. -/
def trackBody (x : Desk.Expansion) (acc : List Expr) : List Form → Position → Desk.Act (List Expr)
  | [], _ => pure acc.reverse
  | [f], p => do return ((← f.track x p) :: acc).reverse
  | f :: rest, p => do trackBody x ((← f.track x p.nonTail) :: acc) rest p

/-- Parses alternating names and values; each name is declared after its value. -/
def trackBindings (x : Desk.Expansion) (acc : List (Bound Expr)) :
    List Form → Position → Desk.Act (List (Bound Expr))
  | name :: init :: rest, p => do
    let name ← .lift (Act.ofExcept (bindingName name))
    let init ← init.track x p
    .declare name
    trackBindings x (⟨name, init⟩ :: acc) rest p
  | _, _ => pure acc.reverse

/-- Parses a function after its name: parameters and a body, or several arities. -/
def trackFn (x : Desk.Expansion) (name : Option String) (span : Span) :
    List Form → Desk.Act (FnLiteral Expr)
  | .vector params place :: body => do
    let (names, variadic) ← .lift (Act.ofExcept (parameters place params))
    let body ← .inside (name.getD "" :: names).reverse (trackBody x [] body (.body names.length))
    return ⟨name, [⟨names, variadic, body⟩], span, none⟩
  | .list items place :: more => do
    if let some f := notAnArity? (.list items place :: more) then
      .lift (Act.raise ⟨.unexpectedForm "([params] body...)" f.text, f.span⟩)
    match items with
    | params :: body => do
      let (names, variadic) ← .lift (Act.ofExcept (parametersOf params))
      let body ← .inside (name.getD "" :: names).reverse (trackBody x [] body (.body names.length))
      let arities ← trackArities x name span [⟨names, variadic, body⟩] more
      return ⟨name, arities, span, none⟩
    | [] => .lift (fail "Parameter declaration missing" span)
  | _ => .lift (fail "Parameter declaration missing" span)

/-- Parses further arities behind those already parsed, which stand in reverse. -/
def trackArities (x : Desk.Expansion) (name : Option String) (span : Span) (acc : List (Arity Expr)) :
    List Form → Desk.Act (List (Arity Expr))
  | .list (params :: body) _ :: more => do
    let (names, variadic) ← .lift (Act.ofExcept (parametersOf params))
    let body ← .inside (name.getD "" :: names).reverse (trackBody x [] body (.body names.length))
    .lift (checkOverload span acc ⟨names, variadic, body⟩)
    trackArities x name span (⟨names, variadic, body⟩ :: acc) more
  | _ => pure acc.reverse

/-- Parses the clauses of a `try`; what stands before the first of them is passed over. -/
def trackClauses (x : Desk.Expansion) (acc : List (CatchClause Expr)) (finish : Option (List Expr)) :
    List Form → Desk.Act (List (CatchClause Expr) × Option (List Expr))
  | [] => pure (acc.reverse, finish)
  | .list (.symbol "catch" _ :: items) span :: rest => do
    if finish.isSome then .lift (fail "finally clause must be last in try expression" span)
    match items with
    | cls :: name :: body => do
      let cls ← .lift (catchClass cls)
      let name ← .lift (Act.ofExcept (bindingName name))
      let body ← .inside [name] (trackOnto x [] body .top)
      trackClauses x (⟨cls, name, body⟩ :: acc) finish rest
    | _ => .lift (wrongArity "catch" items.length span)
  | .list (.symbol "finally" _ :: body) span :: rest => do
    if finish.isSome then .lift (fail "Only one finally clause allowed in try expression" span)
    trackClauses x acc (some (← trackOnto x [] body .top)) rest
  | f :: rest => do
    if !acc.isEmpty || finish.isSome then
      .lift (fail "Only catch or finally clause can follow catch in try expression" f.span)
    trackClauses x acc finish rest

/-- Parses the forms before the first clause of a `try`. -/
def trackTried (x : Desk.Expansion) (acc : List Expr) : List Form → Desk.Act (List Expr)
  | [] => pure acc.reverse
  | f :: rest => do
    if isClause f then return acc.reverse
    trackTried x ((← f.track x .top) :: acc) rest

end

/-- The parser with fuel for a number of nested expansions, whatever the limit on them. -/
def Expr.trackAt (call : Caller) : Nat → Form → Position → Desk.Act Expr
  | 0 => fun _ _ => .lift Act.exhausted
  | n + 1 => Form.track ⟨Expr.trackAt call n, call⟩

end TwinLisp
