import TwinLisp.Proofs.Expr.Parsed

/-! The function literals of a program and the locals that it refers to, at any depth.

* `Expr.literals`: all literals in an expression, those inside other literals too.
* `Expr.Parsed.literals`: in a program of the parser each of them is a literal of the parser.
* `Expr.mentions`: all locals of an expression, those inside function literals too.
* `FnLiteral.RefersOutside`: whether a literal refers to a binder of the frames around it. -/

namespace TwinLisp

mutual

/-- All function literals of an expression. -/
def Expr.literals : Expr → List (FnLiteral Expr)
  | .literal .. | .quote .. | .localRef .. | .varRef .. | .theVar .. | .macroCall .. => []
  | .vector items _ | .map items _ | .set items _ | .block items _ | .recur items _ =>
    literalsAll items
  | .cond test yes no _ => test.literals ++ yes.literals ++ literalsOption no
  | .letIn bindings body _ | .loop bindings body _ => literalsBindings bindings ++ literalsAll body
  | .fn ⟨name, arities, fspan, compiled⟩ _ =>
    ⟨name, arities, fspan, compiled⟩ :: literalsArities arities
  | .define _ value _ => literalsOption value
  | .setLocal _ value _ | .setVar _ value _ | .throw value _ => value.literals
  | .call callee args _ => callee.literals ++ literalsAll args
  | .attempt body catches finish _ =>
    literalsAll body ++ literalsCatches catches ++ literalsBody finish

def literalsAll : List Expr → List (FnLiteral Expr)
  | [] => []
  | e :: rest => e.literals ++ literalsAll rest

def literalsOption : Option Expr → List (FnLiteral Expr)
  | none => []
  | some e => e.literals

def literalsBody : Option (List Expr) → List (FnLiteral Expr)
  | none => []
  | some body => literalsAll body

def literalsBindings : List (Bound Expr) → List (FnLiteral Expr)
  | [] => []
  | ⟨_, init⟩ :: rest => init.literals ++ literalsBindings rest

def literalsArities : List (Arity Expr) → List (FnLiteral Expr)
  | [] => []
  | ⟨_, _, body⟩ :: rest => literalsAll body ++ literalsArities rest

def literalsCatches : List (CatchClause Expr) → List (FnLiteral Expr)
  | [] => []
  | ⟨_, _, body⟩ :: rest => literalsAll body ++ literalsCatches rest

end

variable {R : Expr.Rules}

/-- All literals of a list are literals of the parser, each in its scopes. -/
def FnLiteral.AllParsed (R : Expr.Rules) (fs : List (FnLiteral Expr)) : Prop :=
  ∀ f ∈ fs, ∃ sc, f.Parsed R sc

namespace FnLiteral.AllParsed

theorem nil : AllParsed R [] := nofun

theorem append {fs gs : List (FnLiteral Expr)} (hf : AllParsed R fs) (hg : AllParsed R gs) :
    AllParsed R (fs ++ gs) := fun f h => (List.mem_append.mp h).elim (hf f) (hg f)

end FnLiteral.AllParsed

open FnLiteral.AllParsed

mutual

theorem Expr.Parsed.literals (e : Expr) {sc : Scopes} {p : Position} (h : e.Parsed R sc p) :
    FnLiteral.AllParsed R e.literals := by
  cases e with
  | literal | quote | localRef | varRef | theVar | macroCall => exact nil
  | vector items =>
    cases h with
    | vector h => exact literalsAll_parsed items h
  | map items =>
    cases h with
    | map _ h => exact literalsAll_parsed items h
  | set items =>
    cases h with
    | set h => exact literalsAll_parsed items h
  | block body =>
    cases h with
    | block h => exact literalsBlock_parsed body h
  | recur args =>
    cases h with
    | recur _ _ h => exact literalsAll_parsed args h
  | cond test yes no =>
    cases h with
    | cond ht hy hn =>
      exact ((ht.literals test).append (hy.literals yes)).append (literalsOption_parsed no hn)
  | letIn bindings body =>
    cases h with
    | letIn hb h => exact (literalsBindings_parsed bindings hb).append (literalsBlock_parsed body h)
  | loop bindings body =>
    cases h with
    | loop hb h => exact (literalsBindings_parsed bindings hb).append (literalsBlock_parsed body h)
  | fn f span =>
    obtain ⟨name, arities, fspan, compiled⟩ := f
    cases h with
    | fn hr h =>
      intro g hg
      rcases List.mem_cons.mp hg with rfl | hg
      · exact ⟨sc, hr, h⟩
      · exact literalsArities_parsed arities
          (fun params variadic body hm => ⟨_, _, h params variadic body hm⟩) g hg
  | define v value =>
    cases h with
    | define h => exact literalsOption_parsed value h
  | setLocal b e =>
    cases h with
    | setLocal _ h => exact h.literals e
  | setVar v e =>
    cases h with
    | setVar h => exact h.literals e
  | throw e =>
    cases h with
    | throw h => exact h.literals e
  | call callee args =>
    cases h with
    | call hc h => exact (hc.literals callee).append (literalsAll_parsed args h)
  | attempt body catches finish =>
    cases h with
    | attempt h hc hf =>
      refine ((literalsAll_parsed body h).append ?_).append (literalsBody_parsed finish hf)
      exact literalsCatches_parsed catches fun cls name body hm => ⟨_, _, hc cls name body hm⟩

theorem literalsAll_parsed (es : List Expr) {sc : Scopes} {p : Position}
    (h : TwinLisp.AllParsed R sc p es) : FnLiteral.AllParsed R (literalsAll es) := by
  cases es with
  | nil => exact nil
  | cons e rest =>
    exact ((h e List.mem_cons_self).literals e).append
      (literalsAll_parsed rest fun x hx => h x (List.mem_cons_of_mem e hx))

theorem literalsBlock_parsed (es : List Expr) {sc : Scopes} {p : Position}
    (h : BodyParsed R sc p es) : FnLiteral.AllParsed R (literalsAll es) := by
  match es, h with
  | [], .nil => exact nil
  | [e], .last h => exact (h.literals e).append nil
  | e :: e' :: rest, .cons h hr => exact (h.literals e).append (literalsBlock_parsed (e' :: rest) hr)

theorem literalsOption_parsed (o : Option Expr) {sc : Scopes} {p : Position}
    (h : ∀ e, o = some e → e.Parsed R sc p) : FnLiteral.AllParsed R (literalsOption o) := by
  cases o with
  | none => exact nil
  | some e => exact (h e rfl).literals e

theorem literalsBody_parsed (o : Option (List Expr)) {sc : Scopes} {p : Position}
    (h : ∀ body, o = some body → TwinLisp.AllParsed R sc p body) :
    FnLiteral.AllParsed R (literalsBody o) := by
  cases o with
  | none => exact nil
  | some body => exact literalsAll_parsed body (h body rfl)

theorem literalsBindings_parsed (bs : List (Bound Expr)) {sc inner : Scopes} {p : Position}
    (h : BindingsParsed R sc p bs inner) : FnLiteral.AllParsed R (literalsBindings bs) := by
  match bs, h with
  | [], .nil => exact nil
  | ⟨_, init⟩ :: rest, .cons h hr => exact (h.literals init).append (literalsBindings_parsed rest hr)

theorem literalsArities_parsed (as : List (Arity Expr))
    (h : ∀ params variadic body, Arity.mk params variadic body ∈ as →
      ∃ sc p, BodyParsed R sc p body) : FnLiteral.AllParsed R (literalsArities as) := by
  match as with
  | [] => exact nil
  | ⟨params, variadic, body⟩ :: rest =>
    obtain ⟨sc, p, hb⟩ := h params variadic body List.mem_cons_self
    exact (literalsBlock_parsed body hb).append (literalsArities_parsed rest
      fun params variadic body hm => h params variadic body (List.mem_cons_of_mem _ hm))

theorem literalsCatches_parsed (cs : List (CatchClause Expr))
    (h : ∀ cls name body, CatchClause.mk cls name body ∈ cs →
      ∃ sc p, TwinLisp.AllParsed R sc p body) : FnLiteral.AllParsed R (literalsCatches cs) := by
  match cs with
  | [] => exact nil
  | ⟨cls, name, body⟩ :: rest =>
    obtain ⟨sc, p, hb⟩ := h cls name body List.mem_cons_self
    exact (literalsAll_parsed body hb).append (literalsCatches_parsed rest
      fun cls name body hm => h cls name body (List.mem_cons_of_mem _ hm))

end

mutual

/-- All locals that an expression reads or assigns to. -/
def Expr.mentions : Expr → List Binding
  | .literal .. | .quote .. | .varRef .. | .theVar .. | .macroCall .. => []
  | .localRef b _ => [b]
  | .vector items _ | .map items _ | .set items _ | .block items _ | .recur items _ =>
    mentionsAll items
  | .cond test yes no _ => test.mentions ++ (yes.mentions ++ mentionsOption no)
  | .letIn bindings body _ | .loop bindings body _ => mentionsBindings bindings ++ mentionsAll body
  | .fn ⟨_, arities, _, _⟩ _ => mentionsArities arities
  | .define _ value _ => mentionsOption value
  | .setLocal b value _ => value.mentions ++ [b]
  | .setVar _ value _ | .throw value _ => value.mentions
  | .call callee args _ => callee.mentions ++ mentionsAll args
  | .attempt body catches finish _ =>
    mentionsAll body ++ mentionsCatches catches ++ mentionsBody finish

def mentionsAll : List Expr → List Binding
  | [] => []
  | e :: rest => e.mentions ++ mentionsAll rest

def mentionsOption : Option Expr → List Binding
  | none => []
  | some e => e.mentions

def mentionsBody : Option (List Expr) → List Binding
  | none => []
  | some body => mentionsAll body

def mentionsBindings : List (Bound Expr) → List Binding
  | [] => []
  | ⟨_, init⟩ :: rest => init.mentions ++ mentionsBindings rest

def mentionsArities : List (Arity Expr) → List Binding
  | [] => []
  | ⟨_, _, body⟩ :: rest => mentionsAll body ++ mentionsArities rest

def mentionsCatches : List (CatchClause Expr) → List Binding
  | [] => []
  | ⟨_, _, body⟩ :: rest => mentionsAll body ++ mentionsCatches rest

end

/-- All locals that a function literal refers to. -/
def FnLiteral.mentions (f : FnLiteral Expr) : List Binding := mentionsArities f.arities

/-- A literal inside a number of frames refers to a binder of one of them. -/
def FnLiteral.RefersOutside (around : Nat) (f : FnLiteral Expr) : Prop :=
  ∃ x ∈ f.mentions, x.frame < around

end TwinLisp
