import TwinLisp.Expr.OfForm
import TwinLisp.Proofs.Form.Proper

/-! Programs as the parser makes them. Every local name is bound in the scopes where it stands,
`recur` stands at the end of a body and passes the right number of values, in a map every key has a
value, and constants contain no functions. What bytecode function literals may have, and whether
macros may be called late, is left to rules: the parser gives no literal any bytecode.

* `Expr.Parsed`: an expression of the parser, in its scopes and at its position.
* `BodyParsed`, `BindingsParsed`: its bodies and bindings. -/

namespace TwinLisp

/-- What programs may contain. -/
structure Expr.Rules where
  /-- The function literals, each in its scopes. -/
  literal : Scopes → FnLiteral Expr → Prop
  /-- Whether macros may be called late. -/
  late : Prop

/-- In a variadic arity there is a parameter for the rest. -/
def FnLiteral.Formed (f : FnLiteral Expr) : Prop :=
  ∀ a ∈ f.arities, a.variadic = true → a.params ≠ []

/-- The rules of the parser: literals are well formed, and none has bytecode. -/
def Expr.Rules.bare : Expr.Rules := ⟨fun _ f => f.compiled = none ∧ f.Formed, True⟩

mutual

/-- An expression of the parser. -/
inductive Expr.Parsed (R : Expr.Rules) : Scopes → Position → Expr → Prop
  | literal {sc p v span} (h : ∀ ρ : Renaming, v.rename ρ = v) :
    Expr.Parsed R sc p (.literal v span)
  | quote {sc p v span} (h : ∀ ρ : Renaming, v.rename ρ = v) : Expr.Parsed R sc p (.quote v span)
  | vector {sc p items span} (h : ∀ e ∈ items, Expr.Parsed R sc p.nonTail e) :
    Expr.Parsed R sc p (.vector items span)
  | set {sc p items span} (h : ∀ e ∈ items, Expr.Parsed R sc p.nonTail e) :
    Expr.Parsed R sc p (.set items span)
  | map {sc p items span} (hl : items.length % 2 = 0)
    (h : ∀ e ∈ items, Expr.Parsed R sc p.nonTail e) :
    Expr.Parsed R sc p (.map items span)
  | localRef {sc p b span} (h : sc.find? b.name = some b) : Expr.Parsed R sc p (.localRef b span)
  | varRef {sc p v span} : Expr.Parsed R sc p (.varRef v span)
  | theVar {sc p v span} : Expr.Parsed R sc p (.theVar v span)
  | cond {sc p test yes no span} (ht : Expr.Parsed R sc p.nonTail test) (hy : Expr.Parsed R sc p yes)
    (hn : ∀ e, no = some e → Expr.Parsed R sc p e) : Expr.Parsed R sc p (.cond test yes no span)
  | block {sc p body span} (h : BodyParsed R sc p body) : Expr.Parsed R sc p (.block body span)
  | letIn {sc p bindings body inner span}
    (hb : BindingsParsed R ([] :: sc) p.nonTail bindings inner) (h : BodyParsed R inner p body) :
    Expr.Parsed R sc p (.letIn bindings body span)
  | loop {sc p bindings body inner span}
    (hb : BindingsParsed R ([] :: sc) p.nonTail bindings inner)
    (h : BodyParsed R inner (.body bindings.length) body) :
    Expr.Parsed R sc p (.loop bindings body span)
  | recur {sc p args span} (ht : p.tail = true) (ha : p.recurArity = some args.length)
    (h : ∀ e ∈ args, Expr.Parsed R sc p.nonTail e) : Expr.Parsed R sc p (.recur args span)
  | fn {sc p name arities fspan compiled span} (hr : R.literal sc ⟨name, arities, fspan, compiled⟩)
    (h : ∀ params variadic body, Arity.mk params variadic body ∈ arities →
      BodyParsed R (sc.enterCall (name.getD "") params) (.body params.length) body) :
    Expr.Parsed R sc p (.fn ⟨name, arities, fspan, compiled⟩ span)
  | define {sc p v value span} (h : ∀ e, value = some e → Expr.Parsed R sc p.nonTail e) :
    Expr.Parsed R sc p (.define v value span)
  | setLocal {sc p b e span} (hb : sc.find? b.name = some b) (h : Expr.Parsed R sc p.nonTail e) :
    Expr.Parsed R sc p (.setLocal b e span)
  | setVar {sc p v e span} (h : Expr.Parsed R sc p.nonTail e) : Expr.Parsed R sc p (.setVar v e span)
  | call {sc p callee args span} (hc : Expr.Parsed R sc p.nonTail callee)
    (h : ∀ e ∈ args, Expr.Parsed R sc p.nonTail e) : Expr.Parsed R sc p (.call callee args span)
  | throw {sc p e span} (h : Expr.Parsed R sc p.nonTail e) : Expr.Parsed R sc p (.throw e span)
  | attempt {sc p body catches finish span} (h : ∀ e ∈ body, Expr.Parsed R sc .top e)
    (hc : ∀ cls name body, CatchClause.mk cls name body ∈ catches →
      ∀ e ∈ body, Expr.Parsed R ([name] :: sc) .top e)
    (hf : ∀ body, finish = some body → ∀ e ∈ body, Expr.Parsed R sc .top e) :
    Expr.Parsed R sc p (.attempt body catches finish span)
  | macroCall {sc p v args span} (hr : R.late) (h : Form.AllProper args) :
    Expr.Parsed R sc p (.macroCall v args span)

/-- A body, only the last expression of which stands where the body stands. -/
inductive BodyParsed (R : Expr.Rules) : Scopes → Position → List Expr → Prop
  | nil {sc p} : BodyParsed R sc p []
  | last {sc p e} (h : e.Parsed R sc p) : BodyParsed R sc p [e]
  | cons {sc p e e' rest} (h : e.Parsed R sc p.nonTail) (hr : BodyParsed R sc p (e' :: rest)) :
    BodyParsed R sc p (e :: e' :: rest)

/-- Bindings, each of which is known to those after it; `inner` are the scopes behind them. -/
inductive BindingsParsed (R : Expr.Rules) : Scopes → Position → List (Bound Expr) → Scopes → Prop
  | nil {sc p} : BindingsParsed R sc p [] sc
  | cons {sc p name init rest inner} (h : init.Parsed R sc p)
    (hr : BindingsParsed R (sc.declare name) p rest inner) :
    BindingsParsed R sc p (⟨name, init⟩ :: rest) inner

end

/-- All expressions of a list are of the parser. -/
abbrev AllParsed (R : Expr.Rules) (sc : Scopes) (p : Position) (es : List Expr) : Prop := ∀ e ∈ es, e.Parsed R sc p

/-- A function literal in its scopes. -/
structure FnLiteral.Parsed (R : Expr.Rules) (sc : Scopes) (f : FnLiteral Expr) : Prop where
  literal : R.literal sc f
  arities : ∀ params variadic body, Arity.mk params variadic body ∈ f.arities →
    BodyParsed R (sc.enterCall (f.name.getD "") params) (.body params.length) body

variable {R : Expr.Rules}

theorem FnLiteral.Parsed.expr {sc : Scopes} {p : Position} {f : FnLiteral Expr} {span : Span}
    (h : f.Parsed R sc) : (Expr.fn f span).Parsed R sc p := .fn h.literal h.arities

theorem FnLiteral.Parsed.of_expr {sc : Scopes} {p : Position} {f : FnLiteral Expr} {span : Span}
    (h : (Expr.fn f span).Parsed R sc p) : f.Parsed R sc := by
  cases h with
  | fn hr h => exact ⟨hr, h⟩

theorem AllParsed.nil {sc : Scopes} {p : Position} : AllParsed R sc p [] :=
  fun _ h => absurd h List.not_mem_nil

theorem AllParsed.cons {sc : Scopes} {p : Position} {e : Expr} {es : List Expr}
    (h : e.Parsed R sc p) (hs : AllParsed R sc p es) : AllParsed R sc p (e :: es) := by
  intro f hf
  rcases List.mem_cons.mp hf with rfl | hf
  · exact h
  · exact hs f hf

theorem AllParsed.reverse {sc : Scopes} {p : Position} {es : List Expr} (h : AllParsed R sc p es) :
    AllParsed R sc p es.reverse := fun e he => h e (List.mem_reverse.mp he)

theorem BodyParsed.prepend {sc : Scopes} {p : Position} {acc : List Expr} {e : Expr}
    {rest : List Expr} (ha : AllParsed R sc p.nonTail acc) (h : BodyParsed R sc p (e :: rest)) :
    BodyParsed R sc p (acc.reverse ++ e :: rest) := by
  induction acc generalizing e rest with
  | nil => exact h
  | cons a acc ih =>
    rw [List.reverse_cons, List.append_assoc]
    exact ih (fun x hx => ha x (List.mem_cons_of_mem a hx)) (.cons (ha a List.mem_cons_self) h)

theorem BindingsParsed.append {sc : Scopes} {p : Position} {bs : List (Bound Expr)}
    {middle : Scopes} (h : BindingsParsed R sc p bs middle) {rest : List (Bound Expr)}
    {inner : Scopes} (hr : BindingsParsed R middle p rest inner) : BindingsParsed R sc p (bs ++ rest) inner := by
  match bs, h with
  | [], .nil => exact hr
  | _ :: _, .cons h hb => exact .cons h (hb.append hr)

/-- Bindings add their names to the innermost scope. -/
theorem BindingsParsed.inner_eq {names : List String} {sc inner : Scopes} {p : Position}
    {bs : List (Bound Expr)} (h : BindingsParsed R (names :: sc) p bs inner) :
    inner = ((bs.map Bound.name).reverse ++ names) :: sc := by
  match bs, h with
  | [], .nil => rfl
  | ⟨name, init⟩ :: rest, .cons _ hb =>
    rw [hb.inner_eq, List.map_cons, List.reverse_cons, List.append_assoc]
    rfl

end TwinLisp
