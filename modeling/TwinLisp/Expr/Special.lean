import TwinLisp.Expr.Scope
import TwinLisp.Macro.Builtin
import TwinLisp.Value.Equality
/-!
The special forms and the rules on their parts that do not depend on expressions: which names can
be bound, how parameters are written, which Vars can be defined.

* `Special.ofForm?`: the special form that a symbol heads.
* `bindingName`: a plain name that can be bound.
* `parameters`: a list of parameters, the last of which may take the rest.
* `definedVar`: the Var that a definition is for.
-/

namespace TwinLisp

inductive Special where
  | quote
  | cond
  | block
  | letIn
  | loop
  | recur
  | fn
  | define
  | assign
  | theVar
  | throw
  | attempt
  | defineMacro
  deriving DecidableEq, Repr

namespace Special

def ofName? : String → Option Special
  | "quote" => some quote
  | "if" => some cond
  | "do" => some block
  | "let" => some letIn
  | "loop" => some loop
  | "recur" => some recur
  | "fn" => some fn
  | "def" => some define
  | "set!" => some assign
  | "var" => some theVar
  | "throw" => some throw
  | "try" => some attempt
  | "defmacro" => some defineMacro
  | _ => none

/-- The special form that a symbol heads. -/
def ofForm? (head : Form) : Option Special := head.symbol?.bind ofName?

end Special

namespace Parse

/-- A fault in a program as an action. -/
def fail {α : Type} (text : String) (span : Span) : Parse α := Act.raise ⟨.general text, span⟩

def wrongArity {α : Type} (form : String) (count : Nat) (span : Span) : Parse α :=
  Act.raise ⟨.wrongArity form count, span⟩

def unresolved {α : Type} (name : String) (span : Span) : Parse α :=
  Act.raise ⟨.unresolvedSymbol name, span⟩

/-- The name of a symbol; other forms are faulty. -/
def symbolName (expected : String) (form : Form) : Parse String :=
  match form.symbol? with
  | some name => pure name
  | none => Act.raise ⟨.unexpectedForm expected form.text, form.span⟩

def isBindable (name : String) : Bool := (splitQualified name).isNone && name != "&"

/-- A plain name that can be bound. -/
def bindingName (form : Form) : Except ParseError String :=
  match form with
  | .symbol name span =>
    if isBindable name then .ok name
    else .error ⟨.general ("Unsupported binding form: " ++ form.text), span⟩
  | _ => .error ⟨.general ("Unsupported binding form: " ++ form.text), form.span⟩

/-- The names of parameters, and whether the last takes the rest; it follows an ampersand. -/
def parameters (span : Span) : List Form → Except ParseError (List String × Bool)
  | [] => .ok ([], false)
  | f :: rest =>
    if f.isSymbol "&" then
      match rest with
      | [last] => (bindingName last).map fun name => ([name], true)
      | _ =>
        .error ⟨.general "Invalid parameter list: & must be followed by exactly one name", span⟩
    else
      match bindingName f with
      | .error e => .error e
      | .ok name => (parameters span rest).map fun (names, variadic) => (name :: names, variadic)

/-- The parameters of an arity, which stand in a vector. -/
def parametersOf (form : Form) : Except ParseError (List String × Bool) :=
  match form with
  | .vector items span => parameters span items
  | _ => .error ⟨.unexpectedForm "parameter vector" form.text, form.span⟩

/-- The first of several arities that is not a nonempty list. -/
def notAnArity? (forms : List Form) : Option Form :=
  forms.find? fun f =>
    match f with
    | .list (_ :: _) _ => false
    | _ => true

/-- Two arities of one function must not take the same number of arguments, and at most one is
variadic. -/
def checkOverload (span : Span) (earlier : List (Arity Expr)) (a : Arity Expr) : Parse Unit := do
  if a.variadic && earlier.any fun b => b.variadic then
    fail "Can't have more than 1 variadic overload" span
  if !a.variadic && earlier.any fun b => !b.variadic && b.params.length == a.params.length then
    fail "Can't have 2 overloads with same arity" span

/-- The constants among expressions. -/
def constants (es : List Expr) : List Value :=
  es.filterMap fun e =>
    match e with
    | .literal v _ | .quote v _ => some v
    | _ => none

/-- Constant keys of a literal must differ. -/
def distinct (es : List Expr) (span : Span) : Parse Unit :=
  match Value.repeated? (constants es) with
  | some v => fail ("Duplicate key: " ++ v.readable) span
  | none => pure ()

/-- Every other element, beginning with the first. -/
def everyOther : List Expr → List Expr
  | k :: _ :: rest => k :: everyOther rest
  | es => es

/-- The Var that a definition is for, which must be one of the current namespace. -/
def definedVar (form : Form) : Parse Var := do
  let name ← symbolName "symbol" form
  match splitQualified name with
  | none => Act.intern name
  | some (ns, plain) =>
    if ns ≠ (← Act.ask fun s => s.names.current) then
      fail ("Can't create defs outside of current ns: " ++ name) form.span
    Act.intern plain

/-- The binding of a plain name. -/
def local? (name : String) (sc : Scopes) : Option Binding :=
  if (splitQualified name).isNone then sc.find? name else none

/-- A symbol as an expression. -/
def reference (sc : Scopes) (name : String) (span : Span) : Parse Expr := do
  match local? name sc with
  | some b => pure (.localRef b span)
  | none =>
    match ← Act.resolve? name with
    | none => unresolved name span
    | some v =>
      if ← Act.askStore (Store.isMacro v) then
        fail ("Can't take value of a macro: #'" ++ v.qualified) span
      pure (.varRef v span)

/-- An assignment to a symbol. -/
def assignment (sc : Scopes) (name : String) (place : Span) (value : Expr) (span : Span) :
    Parse Expr := do
  match local? name sc with
  | some b => pure (.setLocal b value span)
  | none =>
    match ← Act.resolve? name with
    | none => unresolved name place
    | some v => pure (.setVar v value span)

/-- A symbol as the Var itself. -/
def theVar (form : Form) (span : Span) : Parse Expr := do
  let name ← symbolName "symbol" form
  match ← Act.resolve? name with
  | none => fail ("Unable to resolve var: " ++ name ++ " in this context") span
  | some v => pure (.theVar v span)

/-- The rules on a `recur` with a number of values. -/
def checkRecur (p : Position) (count : Nat) (span : Span) : Parse Unit :=
  match p.recurArity with
  | none => fail "recur used outside of loop" span
  | some expected =>
    if !p.tail then fail "Can only recur from tail position" span
    else if count ≠ expected then
      fail ("Mismatched argument count to recur, expected: " ++ toString expected ++
        " args, got: " ++ toString count) span
    else pure ()

/-- What a catch clause takes. -/
def catchClass (form : Form) : Parse CatchClass := do
  match ← symbolName "exception class" form with
  | "Error" | "Exception" | "Throwable" => pure .any
  | "ExInfo" => pure .exInfo
  | other => fail ("Unknown exception class: " ++ other) form.span

/-- Whether a form is a clause of `try`. -/
def isClause : Form → Bool
  | .list (.symbol name _ :: _) _ => name == "catch" || name == "finally"
  | _ => false

end Parse

end TwinLisp
