import TwinLisp.Expr.Special
import TwinLisp.Macro.Builtin
/-!
From forms to programs. A form is parsed where it stands: `Scopes` holds the names around it and
`Position` says whether it may `recur`. Macro calls are expanded on the way; what an expansion
yields is parsed by the next lower level, and there are `maxExpansions` levels, so parsing ends
whatever macros do.

* `Form.parse`: the expression of a form, given a parser for expansions.
* `Expr.ofForm`: the expression of a whole form.
-/

namespace TwinLisp

/-- What parsing needs of its surroundings: a parser for what macros yield, and calls. -/
structure Expansion where
  parse : Form → Scopes → Position → Parse Expr
  call : Value → List Value → Run Value

namespace Expansion

/-- A call whose head is a name: a macro of the language, a macro of the program, or no macro. A
macro of the program that has no value yet is kept for later. -/
def rewrite? (x : Expansion) (form : Form) (name : String) (args : List Form) (sc : Scopes)
    (p : Position) : Parse (Option Expr) := do
  if (sc.find? name).isSome then return none
  if let some expansion ← Macro.expandBuiltin form then
    return some (← x.parse expansion sc p)
  let some v ← Act.resolve? name | return none
  unless ← Act.askStore (Store.isMacro v) do return none
  match ← Act.askStore (Store.varValue? v) with
  | none => return some (.macroCall v args form.span)
  | some f =>
    let expansion ← Act.mapFault ParseError.ofExpansion (Macro.expandUser x.call f args form.span)
    return some (← x.parse expansion sc p)

end Expansion

open Parse

mutual

/-- The expression of a form where it stands. -/
def Form.parse (x : Expansion) : Form → Scopes → Position → Parse Expr
  | .atom v span, _, _ => pure (.literal v span)
  | .symbol name span, sc, _ => reference sc name span
  | .vector items span, sc, p => do
    return .vector (← parseOnto x [] items sc p.nonTail) span
  | .set items span, sc, p => do
    let items ← parseOnto x [] items sc p.nonTail
    distinct items span
    return .set items span
  | .map items span, sc, p => do
    let items ← parseOnto x [] items sc p.nonTail
    distinct (everyOther items) span
    return .map items span
  | .list [] span, _, _ => pure (.literal (.list []) span)
  | .list (head :: args) span, sc, p =>
    match Special.ofForm? head with
    | some .quote =>
      match args with
      | [f] => pure (.quote f.toValue span)
      | _ => wrongArity "quote" args.length span
    | some .cond =>
      match args with
      | [test, yes] => do
        let test ← test.parse x sc p.nonTail
        return .cond test (← yes.parse x sc p) none span
      | [test, yes, no] => do
        let test ← test.parse x sc p.nonTail
        let yes ← yes.parse x sc p
        return .cond test yes (some (← no.parse x sc p)) span
      | _ => wrongArity "if" args.length span
    | some .block => return .block (← parseBody x [] args sc p) span
    | some .letIn =>
      match args with
      | .vector pairs _ :: body => do
        if pairs.length % 2 ≠ 0 then
          fail "let requires an even number of forms in binding vector" span
        let (bindings, inner) ← parseBindings x [] pairs ([] :: sc) p.nonTail
        return .letIn bindings (← parseBody x [] body inner p) span
      | _ => fail "let requires a vector for its binding" span
    | some .loop =>
      match args with
      | .vector pairs _ :: body => do
        if pairs.length % 2 ≠ 0 then
          fail "loop requires an even number of forms in binding vector" span
        let (bindings, inner) ← parseBindings x [] pairs ([] :: sc) p.nonTail
        return .loop bindings (← parseBody x [] body inner (.body bindings.length)) span
      | _ => fail "loop requires a vector for its binding" span
    | some .recur => do
      checkRecur p args.length span
      return .recur (← parseOnto x [] args sc p.nonTail) span
    | some .fn =>
      match args with
      | .symbol name _ :: rest => return .fn (← parseFn x (some name) span rest sc) span
      | [] => return .fn (← parseFn x none span [] sc) span
      | first :: rest => return .fn (← parseFn x none span (first :: rest) sc) span
    | some .define =>
      match args with
      | [name] => do
        return .define (← definedVar name) none span
      | [name, value] => do
        let v ← definedVar name
        return .define v (some (← value.parse x sc p.nonTail)) span
      | [name, _, value] => do
        let v ← definedVar name
        return .define v (some (← value.parse x sc p.nonTail)) span
      | _ => wrongArity "def" args.length span
    | some .assign =>
      match args with
      | [target, value] => do
        let name ← symbolName "symbol" target
        assignment sc name target.span (← value.parse x sc p.nonTail) span
      | _ => wrongArity "set!" args.length span
    | some .theVar =>
      match args with
      | [f] => theVar f span
      | _ => wrongArity "var" args.length span
    | some .throw =>
      match args with
      | [value] => return .throw (← value.parse x sc p.nonTail) span
      | _ => wrongArity "throw" args.length span
    | some .attempt => do
      let (catches, finish) ← parseClauses x [] none args sc
      return .attempt (← parseTried x [] args sc) catches finish span
    | some .defineMacro =>
      match args with
      | name :: .atom (.str _) _ :: first :: rest => do
        let v ← definedVar name
        Act.updateStore (Store.setMacro v true)
        return .define v (some (.fn (← parseFn x name.symbol? span (first :: rest) sc) span)) span
      | name :: first :: rest => do
        let v ← definedVar name
        Act.updateStore (Store.setMacro v true)
        return .define v (some (.fn (← parseFn x name.symbol? span (first :: rest) sc) span)) span
      | _ => wrongArity "defmacro" args.length span
    | none => do
      if let some name := head.symbol? then
        if let some e ← x.rewrite? (.list (head :: args) span) name args sc p then
          return e
      let callee ← head.parse x sc p.nonTail
      return .call callee (← parseOnto x [] args sc p.nonTail) span

/-- Parses forms behind those already parsed, which stand in reverse. -/
def parseOnto (x : Expansion) (acc : List Expr) : List Form → Scopes → Position → Parse (List Expr)
  | [], _, _ => pure acc.reverse
  | f :: rest, sc, p => do parseOnto x ((← f.parse x sc p) :: acc) rest sc p

/-- Parses a body: only its last form stands where the body stands. -/
def parseBody (x : Expansion) (acc : List Expr) : List Form → Scopes → Position → Parse (List Expr)
  | [], _, _ => pure acc.reverse
  | [f], sc, p => do return ((← f.parse x sc p) :: acc).reverse
  | f :: rest, sc, p => do parseBody x ((← f.parse x sc p.nonTail) :: acc) rest sc p

/-- Parses alternating names and values; each name is known after its value. -/
def parseBindings (x : Expansion) (acc : List (Bound Expr)) :
    List Form → Scopes → Position → Parse (List (Bound Expr) × Scopes)
  | name :: init :: rest, sc, p => do
    let name ← Act.ofExcept (bindingName name)
    let init ← init.parse x sc p
    parseBindings x (⟨name, init⟩ :: acc) rest (sc.declare name) p
  | _, sc, _ => pure (acc.reverse, sc)

/-- Parses a function after its name: parameters and a body, or several arities. -/
def parseFn (x : Expansion) (name : Option String) (span : Span) :
    List Form → Scopes → Parse (FnLiteral Expr)
  | .vector params place :: body, sc => do
    let (names, variadic) ← Act.ofExcept (parameters place params)
    let inner := sc.enterCall (name.getD "") names
    let body ← parseBody x [] body inner (.body names.length)
    return ⟨name, [⟨names, variadic, body⟩], span, none⟩
  | .list items place :: more, sc => do
    if let some f := notAnArity? (.list items place :: more) then
      Act.raise ⟨.unexpectedForm "([params] body...)" f.text, f.span⟩
    match items with
    | params :: body => do
      let (names, variadic) ← Act.ofExcept (parametersOf params)
      let inner := sc.enterCall (name.getD "") names
      let body ← parseBody x [] body inner (.body names.length)
      let arities ← parseArities x name span [⟨names, variadic, body⟩] more sc
      return ⟨name, arities, span, none⟩
    | [] => fail "Parameter declaration missing" span
  | _, _ => fail "Parameter declaration missing" span

/-- Parses further arities behind those already parsed, which stand in reverse. -/
def parseArities (x : Expansion) (name : Option String) (span : Span) (acc : List (Arity Expr)) :
    List Form → Scopes → Parse (List (Arity Expr))
  | .list (params :: body) _ :: more, sc => do
    let (names, variadic) ← Act.ofExcept (parametersOf params)
    let inner := sc.enterCall (name.getD "") names
    let body ← parseBody x [] body inner (.body names.length)
    checkOverload span acc ⟨names, variadic, body⟩
    parseArities x name span (⟨names, variadic, body⟩ :: acc) more sc
  | _, _ => pure acc.reverse

/-- Parses the clauses of a `try`; what stands before the first of them is passed over. -/
def parseClauses (x : Expansion) (acc : List (CatchClause Expr)) (finish : Option (List Expr)) :
    List Form → Scopes → Parse (List (CatchClause Expr) × Option (List Expr))
  | [], _ => pure (acc.reverse, finish)
  | .list (.symbol "catch" _ :: items) span :: rest, sc => do
    if finish.isSome then fail "finally clause must be last in try expression" span
    match items with
    | cls :: name :: body => do
      let cls ← catchClass cls
      let name ← Act.ofExcept (bindingName name)
      let body ← parseOnto x [] body ([name] :: sc) .top
      parseClauses x (⟨cls, name, body⟩ :: acc) finish rest sc
    | _ => wrongArity "catch" items.length span
  | .list (.symbol "finally" _ :: body) span :: rest, sc => do
    if finish.isSome then fail "Only one finally clause allowed in try expression" span
    parseClauses x acc (some (← parseOnto x [] body sc .top)) rest sc
  | f :: rest, sc => do
    if !acc.isEmpty || finish.isSome then
      fail "Only catch or finally clause can follow catch in try expression" f.span
    parseClauses x acc finish rest sc

/-- Parses the forms before the first clause of a `try`. -/
def parseTried (x : Expansion) (acc : List Expr) : List Form → Scopes → Parse (List Expr)
  | [], _ => pure acc.reverse
  | f :: rest, sc => do
    if isClause f then return acc.reverse
    parseTried x ((← f.parse x sc .top) :: acc) rest sc

end

/-- How deep expansions can be nested. -/
def maxExpansions : Nat := 256

namespace Expr

/-- The expression of a form below a number of further expansions. -/
def ofFormAt (call : Value → List Value → Run Value) :
    Nat → Form → Scopes → Position → Parse Expr
  | 0 => Form.parse ⟨fun f _ _ => fail "Macro expansion too deep" f.span, call⟩
  | n + 1 => Form.parse ⟨ofFormAt call n, call⟩

/-- The expression of a whole form. -/
def ofForm (call : Value → List Value → Run Value) (f : Form) : Parse Expr :=
  ofFormAt call maxExpansions f [] .top

end Expr

end TwinLisp
