import TwinLisp.Form.Data
import TwinLisp.State.Basic
/-!
Macros that are part of the language. Each rewrites a form whose head is its name into simpler
forms, one step at a time: what it writes may begin with a macro again.

* `Macro.threaded`: every step receives the result of the one before.
* `Macro.logical`: the first operand is bound to a fresh name and tested.
* `Macro.expandBuiltin`: the expansion of a form, if its head is one of these macros.
-/

namespace TwinLisp.Macro

def wrongArity (form : String) (args : List Form) (span : Span) : ParseError :=
  ⟨.wrongArity form args.length, span⟩

def general (text : String) (span : Span) : ParseError := ⟨.general text, span⟩

def nilAt (span : Span) : Form := .atom .nil span

/-- A form that begins with a symbol. -/
def headedBy (name : String) (args : List Form) (span : Span) : Form :=
  .list (.symbol name span :: args) span

/-- Forms without a leading text, unless nothing follows it. -/
def dropText : List Form → List Form
  | .atom (.str _) _ :: next :: rest => next :: rest
  | fs => fs

/-- Forms without a leading map, unless nothing follows it. -/
def dropMap : List Form → List Form
  | .map _ _ :: next :: rest => next :: rest
  | fs => fs

/-- A definition of a function: name, an optional text, an optional map, and the rest of `fn`. -/
def defn (args : List Form) (span : Span) : Except ParseError Form :=
  match args with
  | name :: first :: rest =>
    match name with
    | .symbol text place =>
      let tail := dropMap (dropText (first :: rest))
      .ok (headedBy "def" [name, headedBy "fn" (.symbol text place :: tail) span] span)
    | _ => .error (general "First argument to defn must be a symbol" span)
  | _ => .error (wrongArity "defn" args span)

def ifNot (args : List Form) (span : Span) : Except ParseError Form :=
  match args with
  | [test, no] => .ok (headedBy "if" [test, nilAt span, no] span)
  | [test, no, yes] => .ok (headedBy "if" [test, yes, no] span)
  | _ => .error (wrongArity "if-not" args span)

/-- A chain of tests: the first pair becomes an `if` whose other branch is the rest. -/
def cond (args : List Form) (span : Span) : Except ParseError Form :=
  if args.length % 2 ≠ 0 then .error (general "cond requires an even number of forms" span)
  else match args with
    | test :: yes :: rest => .ok (headedBy "if" [test, yes, headedBy "cond" rest span] span)
    | _ => .ok (nilAt span)

/-- One step of a thread with the result so far as its first or last argument. -/
def threadStep (last : Bool) (acc step : Form) : Form :=
  match step with
  | .list (head :: args) span =>
    .list (if last then head :: args ++ [acc] else head :: acc :: args) span
  | _ => .list [step, acc] step.span

/-- Steps each of which receives the result of the one before. -/
def threaded (last : Bool) (args : List Form) (span : Span) : Except ParseError Form :=
  match args with
  | [] => .error (wrongArity (if last then "->>" else "->") args span)
  | first :: steps => .ok (steps.foldl (threadStep last) first)

/-- The test of the first operand, which a fresh name holds, with the other operands in one of its
branches. -/
def logicalStep (conjunction : Bool) (fresh : String) (first : Form) (rest : List Form)
    (span : Span) : Form :=
  let held := Form.symbol fresh span
  let more := headedBy (if conjunction then "and" else "or") rest span
  let branches := if conjunction then [more, held] else [held, more]
  headedBy "let" [.vector [held, first] span, headedBy "if" (held :: branches) span] span

/-- A conjunction or a disjunction. -/
def logical {ε : Type} (conjunction : Bool) (args : List Form) (span : Span) : Act ε Form :=
  match args with
  | [] => pure (if conjunction then .atom (.bool true) span else nilAt span)
  | [only] => pure only
  | first :: rest => do
    let fresh ← Act.gensym (if conjunction then "and" else "or")
    pure (logicalStep conjunction fresh first rest span)

/-- The expansion of a form whose head names one of these macros. -/
def expandBuiltin (form : Form) : Parse (Option Form) :=
  match form with
  | .list (.symbol name _ :: args) span =>
    match name with
    | "defn" => some <$> Act.ofExcept (defn args span)
    | "when" =>
      match args with
      | test :: body => pure (some (headedBy "if" [test, headedBy "do" body span] span))
      | [] => Act.raise (wrongArity name args span)
    | "when-not" =>
      match args with
      | test :: body =>
        pure (some (headedBy "if" [test, nilAt span, headedBy "do" body span] span))
      | [] => Act.raise (wrongArity name args span)
    | "if-not" => some <$> Act.ofExcept (ifNot args span)
    | "cond" => some <$> Act.ofExcept (cond args span)
    | "and" => some <$> logical true args span
    | "or" => some <$> logical false args span
    | "->" => some <$> Act.ofExcept (threaded false args span)
    | "->>" => some <$> Act.ofExcept (threaded true args span)
    | "comment" => pure (some (nilAt span))
    | _ => pure none
  | _ => pure none

/-- The expansion of a call to a macro that is a function: it is called on the arguments as data,
and its result is read as code. -/
def expandUser (call : Value → List Value → Run Value) (f : Value) (args : List Form)
    (span : Span) : Run Form := do
  let result ← Act.within span (call f (Form.toValues args))
  Act.ofExcept (Form.ofValue span result)

end TwinLisp.Macro
