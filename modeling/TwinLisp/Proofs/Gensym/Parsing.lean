import TwinLisp.Expr.OfForm
import TwinLisp.Native.Call
import TwinLisp.Proofs.Gensym.Journal

/-! Macros and the parser make names by `gensym` alone: what they do has a journal, if calls and the
parser for what macros yield have one.

* `Macro.journaled_expandBuiltin`, `Macro.journaled_expandUser`: macros.
* `Parse.blind_definedVar` and its kin: the rules of the special forms make no names.
* `Form.journaled_parse`: a form where it stands.
* `Expr.journaled_ofForm`: a whole form. -/

namespace TwinLisp

open Act (Journaled Blind)

def Caller.Journaled (c : Caller) : Prop := ∀ f args, Act.Journaled (c f args)

/-! ## Macros -/

namespace Macro

theorem journaled_logical {ε : Type} (conjunction : Bool) (args : List Form) (span : Span) :
    Journaled (logical conjunction args span : Act ε Form) := by
  unfold logical
  split
  · exact .pure _
  · exact .pure _
  · exact (Journaled.gensym _).bind fun fresh => .pure _

theorem journaled_expandBuiltin (f : Form) : Journaled (expandBuiltin f) := by
  unfold expandBuiltin
  split
  · split
    · exact (Journaled.ofExcept _).map some
    · split
      · exact .pure _
      · exact .raise _
    · split
      · exact .pure _
      · exact .raise _
    · exact (Journaled.ofExcept _).map some
    · exact (Journaled.ofExcept _).map some
    · exact (journaled_logical _ _ _).map some
    · exact (journaled_logical _ _ _).map some
    · exact (Journaled.ofExcept _).map some
    · exact (Journaled.ofExcept _).map some
    · exact .pure _
    · exact .pure _
  · exact .pure _

theorem journaled_expandUser {c : Caller} (hc : c.Journaled) (f : Value) (args : List Form)
    (span : Span) : Journaled (expandUser c f args span) :=
  ((hc f _).within span).bind fun _ => .ofExcept _

end Macro

/-! ## The rules of the special forms -/

namespace Parse

variable {ν : View}

theorem blind_demand {α : Type} {c : Prop} [Decidable c] {text : String} {span : Span}
    {k : Unit → Parse α} (h : Blind ν (k ())) :
    Blind ν (if c then Parse.fail text span >>= k else k ()) := .ite (fun _ => rfl) h

theorem blind_require {c : Prop} [Decidable c] {text : String} {span : Span} :
    Blind ν (if c then Parse.fail text span else pure () : Parse Unit) := .ite (.raise _) (.pure ())

theorem blind_symbolName (expected : String) (f : Form) : Blind ν (symbolName expected f) := by
  unfold symbolName
  split
  · exact .pure _
  · exact .raise _

theorem blind_definedVar (f : Form) : Blind ν (definedVar f) := by
  refine (blind_symbolName "symbol" f).bind fun name => ?_
  split
  · exact Act.blind_intern _
  · exact (Blind.ask fun _ => rfl).bind fun ns => blind_demand (Act.blind_intern _)

theorem blind_reference (sc : Scopes) (name : String) (span : Span) :
    Blind ν (reference sc name span) := by
  unfold reference
  split
  · exact .pure _
  · refine (Act.blind_resolve? name).bind fun o => ?_
    cases o with
    | none => exact .raise _
    | some v => exact (Act.blind_isMacro v).bind fun flag => blind_demand (.pure _)

theorem blind_assignment (sc : Scopes) (name : String) (place : Span) (value : Expr) (span : Span) :
    Blind ν (assignment sc name place value span) := by
  unfold assignment
  split
  · exact .pure _
  · refine (Act.blind_resolve? name).bind fun o => ?_
    cases o with
    | none => exact .raise _
    | some v => exact .pure _

theorem blind_theVar (f : Form) (span : Span) : Blind ν (theVar f span) := by
  refine (blind_symbolName "symbol" f).bind fun name => ?_
  refine (Act.blind_resolve? name).bind fun o => ?_
  cases o with
  | none => exact .raise _
  | some v => exact .pure _

theorem blind_checkRecur (p : Position) (count : Nat) (span : Span) :
    Blind ν (checkRecur p count span) := by
  unfold checkRecur
  split
  · exact .raise _
  · exact .ite (.raise _) blind_require

theorem blind_checkOverload (span : Span) (earlier : List (Arity Expr)) (a : Arity Expr) :
    Blind ν (checkOverload span earlier a) := by
  unfold checkOverload
  exact blind_demand blind_require

theorem blind_distinct (es : List Expr) (span : Span) : Blind ν (distinct es span) := by
  unfold distinct
  split
  · exact .raise _
  · exact .pure _

theorem blind_catchClass (f : Form) : Blind ν (catchClass f) := by
  refine (blind_symbolName "exception class" f).bind fun name => ?_
  split
  · exact .pure _
  · exact .pure _
  · exact .pure _
  · exact .pure _
  · exact .raise _

theorem journaled_demand {α : Type} {c : Prop} [Decidable c] {text : String} {span : Span}
    {k : Unit → Parse α} (h : Journaled (k ())) :
    Journaled (if c then Parse.fail text span >>= k else k ()) :=
  .ite (.silent fun _ _ => rfl) h

end Parse

/-! ## Forms -/

/-- Parsers for what macros yield, and calls, with journals. -/
structure Expansion.Journaled (x : Expansion) : Prop where
  parse : ∀ f sc p, Act.Journaled (x.parse f sc p)
  call : Caller.Journaled x.call

section Forms

open Parse

set_option linter.unusedSectionVars false

variable {x : Expansion} (hx : x.Journaled)

include hx

theorem Expansion.Journaled.rewrite? (form : Form) (name : String) (args : List Form) (sc : Scopes)
    (p : Position) : Act.Journaled (x.rewrite? form name args sc p) := by
  unfold Expansion.rewrite?
  split
  · exact .pure _
  · refine (Macro.journaled_expandBuiltin form).bind fun o => ?_
    cases o with
    | some f => exact (hx.parse f sc p).bind fun _ => .pure _
    | none =>
      refine Act.Journaled.after (fun _ => Act.blind_resolve? name) fun v => ?_
      cases v with
      | none => exact .pure _
      | some v =>
        refine Act.Journaled.after (fun _ => Act.blind_isMacro v) fun flag => ?_
        cases flag with
        | false => exact .pure _
        | true =>
          refine Act.Journaled.after (fun _ => Act.blind_varValue? v) fun m => ?_
          cases m with
          | none => exact .pure _
          | some f =>
            refine ((Macro.journaled_expandUser hx.call f args form.span).mapFault _).bind
              fun expansion => ?_
            exact (hx.parse expansion sc p).bind fun _ => .pure _

mutual

theorem Form.journaled_parse (f : Form) (sc : Scopes) (p : Position) :
    Act.Journaled (f.parse x sc p) := by
  match f with
  | .atom v span =>
    simp only [Form.parse]
    exact .pure _
  | .symbol name span =>
    simp only [Form.parse]
    exact .silent fun _ => blind_reference sc name span
  | .vector items span =>
    simp only [Form.parse]
    exact (journaled_parseOnto [] items sc p.nonTail).bind fun _ => .pure _
  | .set items span =>
    simp only [Form.parse]
    refine (journaled_parseOnto [] items sc p.nonTail).bind fun es => ?_
    exact Act.Journaled.after (fun _ => blind_distinct es span) fun _ => .pure _
  | .map items span =>
    simp only [Form.parse]
    refine (journaled_parseOnto [] items sc p.nonTail).bind fun es => ?_
    exact Act.Journaled.after (fun _ => blind_distinct _ span) fun _ => .pure _
  | .list [] span =>
    simp only [Form.parse]
    exact .pure _
  | .list (head :: args) span =>
    unfold Form.parse
    dsimp only
    cases Special.ofForm? head with
    | none =>
      -- A call, perhaps of a macro.
      have hcall : Act.Journaled (do
          let callee ← head.parse x sc p.nonTail
          return .call callee (← parseOnto x [] args sc p.nonTail) span : Parse Expr) := by
        refine (Form.journaled_parse head sc p.nonTail).bind fun callee => ?_
        exact (journaled_parseOnto [] args sc p.nonTail).bind fun es => .pure _
      dsimp only
      cases head.symbol? with
      | none => exact hcall
      | some name =>
        refine (hx.rewrite? (.list (head :: args) span) name args sc p).bind fun o => ?_
        cases o with
        | some e => exact .pure _
        | none => exact hcall
    | some special =>
      cases special with
      | quote =>
        match args with
        | [f] => exact .pure _
        | [] | _ :: _ :: _ => exact .raise _
      | cond =>
        match args with
        | [test, yes] =>
          refine (Form.journaled_parse test sc p.nonTail).bind fun t => ?_
          exact (Form.journaled_parse yes sc p).bind fun e => .pure _
        | [test, yes, no] =>
          refine (Form.journaled_parse test sc p.nonTail).bind fun t => ?_
          refine (Form.journaled_parse yes sc p).bind fun e => ?_
          exact (Form.journaled_parse no sc p).bind fun e' => .pure _
        | [] | [_] | _ :: _ :: _ :: _ :: _ => exact .raise _
      | block => exact (journaled_parseBody [] args sc p).bind fun es => .pure _
      | letIn =>
        match args with
        | .vector pairs place :: body =>
          refine journaled_demand ?_
          refine (journaled_parseBindings [] pairs ([] :: sc) p.nonTail).bind fun r => ?_
          exact (journaled_parseBody [] body r.2 p).bind fun es => .pure _
        | [] | .atom .. :: _ | .symbol .. :: _ | .list .. :: _ | .map .. :: _ | .set .. :: _ =>
          exact .raise _
      | loop =>
        match args with
        | .vector pairs place :: body =>
          refine journaled_demand ?_
          refine (journaled_parseBindings [] pairs ([] :: sc) p.nonTail).bind fun r => ?_
          exact (journaled_parseBody [] body r.2 (.body r.1.length)).bind fun es => .pure _
        | [] | .atom .. :: _ | .symbol .. :: _ | .list .. :: _ | .map .. :: _ | .set .. :: _ =>
          exact .raise _
      | recur =>
        refine Act.Journaled.after (fun _ => blind_checkRecur p args.length span) fun _ => ?_
        exact (journaled_parseOnto [] args sc p.nonTail).bind fun es => .pure _
      | fn =>
        match args with
        | .symbol name place :: rest =>
          exact (journaled_parseFn (some name) span rest sc).bind fun f => .pure _
        | [] => exact (journaled_parseFn none span [] sc).bind fun f => .pure _
        | .atom v s :: rest | .list v s :: rest | .vector v s :: rest | .map v s :: rest
        | .set v s :: rest => exact (journaled_parseFn none span _ sc).bind fun f => .pure _
      | define =>
        match args with
        | [name] =>
          exact Act.Journaled.after (fun _ => blind_definedVar name) fun v => .pure _
        | [name, value] | [name, _, value] =>
          refine Act.Journaled.after (fun _ => blind_definedVar name) fun v => ?_
          exact (Form.journaled_parse value sc p.nonTail).bind fun e => .pure _
        | [] | _ :: _ :: _ :: _ :: _ => exact .raise _
      | assign =>
        match args with
        | [target, value] =>
          refine Act.Journaled.after (fun _ => blind_symbolName "symbol" target)
            fun name => ?_
          refine (Form.journaled_parse value sc p.nonTail).bind fun e => ?_
          exact .silent fun _ => blind_assignment sc name target.span e span
        | [] | [_] | _ :: _ :: _ :: _ => exact .raise _
      | theVar =>
        match args with
        | [f] => exact .silent fun _ => blind_theVar f span
        | [] | _ :: _ :: _ => exact .raise _
      | throw =>
        match args with
        | [value] => exact (Form.journaled_parse value sc p.nonTail).bind fun e => .pure _
        | [] | _ :: _ :: _ => exact .raise _
      | attempt =>
        refine (journaled_parseClauses [] none args sc).bind fun r => ?_
        exact (journaled_parseTried [] args sc).bind fun es => .pure _
      | defineMacro =>
        have hmacro : ∀ (name : Form) {fs : List Form},
            Act.Journaled (parseFn x name.symbol? span fs sc) → Act.Journaled (do
              let v ← definedVar name
              Act.updateStore (Store.setMacro v true)
              return .define v (some (.fn (← parseFn x name.symbol? span fs sc) span)) span
              : Parse Expr) := by
          intro name fs h
          refine Act.Journaled.after (fun _ => blind_definedVar name) fun v => ?_
          refine Act.Journaled.after (fun _ => Act.blind_setMacro v true) fun _ => ?_
          exact h.bind fun f => .pure _
        match args with
        | [] | [_] => exact .raise _
        | name :: first :: rest =>
          cases first with
          | atom v place =>
            cases v with
            | str text =>
              cases rest with
              | nil =>
                exact hmacro name (journaled_parseFn name.symbol? span [.atom (.str text) place] sc)
              | cons body more =>
                exact hmacro name (journaled_parseFn name.symbol? span (body :: more) sc)
            | _ =>
              exact hmacro name (journaled_parseFn name.symbol? span (.atom _ place :: rest) sc)
          | _ => exact hmacro name (journaled_parseFn name.symbol? span (_ :: rest) sc)
termination_by sizeOf f
decreasing_by
  all_goals
    subst_vars
    simp only [Form.vector.sizeOf_spec, Form.set.sizeOf_spec, Form.map.sizeOf_spec,
      Form.list.sizeOf_spec, List.cons.sizeOf_spec]
    omega

theorem journaled_parseOnto (acc : List Expr) (fs : List Form) (sc : Scopes) (p : Position) :
    Act.Journaled (parseOnto x acc fs sc p) := by
  match fs with
  | [] =>
    simp only [parseOnto]
    exact .pure _
  | f :: rest =>
    simp only [parseOnto]
    refine (Form.journaled_parse f sc p).bind fun e => ?_
    exact journaled_parseOnto (e :: acc) rest sc p
termination_by sizeOf fs
decreasing_by
  all_goals
    simp only [List.cons.sizeOf_spec]
    omega

theorem journaled_parseBody (acc : List Expr) (fs : List Form) (sc : Scopes) (p : Position) :
    Act.Journaled (parseBody x acc fs sc p) := by
  match fs with
  | [] =>
    simp only [parseBody]
    exact .pure _
  | [f] =>
    simp only [parseBody]
    exact (Form.journaled_parse f sc p).bind fun e => .pure _
  | f :: f' :: rest =>
    simp only [parseBody]
    refine (Form.journaled_parse f sc p.nonTail).bind fun e => ?_
    exact journaled_parseBody (e :: acc) (f' :: rest) sc p
termination_by sizeOf fs
decreasing_by
  all_goals
    simp only [List.cons.sizeOf_spec]
    omega

theorem journaled_parseBindings (acc : List (Bound Expr)) (fs : List Form) (sc : Scopes)
    (p : Position) : Act.Journaled (parseBindings x acc fs sc p) := by
  match fs with
  | [] | [_] =>
    simp only [parseBindings]
    exact .pure _
  | name :: init :: rest =>
    simp only [parseBindings]
    refine (Act.Journaled.ofExcept (bindingName name)).bind fun n => ?_
    refine (Form.journaled_parse init sc p).bind fun e => ?_
    exact journaled_parseBindings (⟨n, e⟩ :: acc) rest (sc.declare n) p
termination_by sizeOf fs
decreasing_by
  all_goals
    simp only [List.cons.sizeOf_spec]
    omega

theorem journaled_parseFn (name : Option String) (span : Span) (fs : List Form) (sc : Scopes) :
    Act.Journaled (parseFn x name span fs sc) := by
  match fs with
  | .vector params place :: body =>
    simp only [parseFn]
    refine (Act.Journaled.ofExcept (parameters place params)).bind fun r => ?_
    exact (journaled_parseBody [] body _ (.body r.1.length)).bind fun es => .pure _
  | .list items place :: more =>
    unfold parseFn
    dsimp only
    cases notAnArity? (.list items place :: more) with
    | some f => exact .silent fun _ _ => rfl
    | none =>
      match items with
      | [] => exact .raise _
      | params :: body =>
        refine (Act.Journaled.ofExcept (parametersOf params)).bind fun r => ?_
        refine (journaled_parseBody [] body _ (.body r.1.length)).bind fun es => ?_
        refine (journaled_parseArities name span [⟨r.1, r.2, es⟩] more sc).bind fun as => ?_
        exact .pure _
  | [] | .atom .. :: _ | .symbol .. :: _ | .map .. :: _ | .set .. :: _ => exact .raise _
termination_by sizeOf fs
decreasing_by
  all_goals
    simp only [Form.vector.sizeOf_spec, Form.list.sizeOf_spec, List.cons.sizeOf_spec]
    omega

theorem journaled_parseArities (name : Option String) (span : Span) (acc : List (Arity Expr))
    (fs : List Form) (sc : Scopes) : Act.Journaled (parseArities x name span acc fs sc) := by
  match fs with
  | .list (params :: body) place :: more =>
    simp only [parseArities]
    refine (Act.Journaled.ofExcept (parametersOf params)).bind fun r => ?_
    refine (journaled_parseBody [] body _ (.body r.1.length)).bind fun es => ?_
    refine Act.Journaled.after (fun _ => blind_checkOverload span acc _) fun _ => ?_
    exact journaled_parseArities name span (⟨r.1, r.2, es⟩ :: acc) more sc
  | [] | .atom .. :: _ | .symbol .. :: _ | .vector .. :: _ | .map .. :: _ | .set .. :: _
  | .list [] _ :: _ => exact .pure _
termination_by sizeOf fs
decreasing_by
  all_goals
    simp only [Form.list.sizeOf_spec, List.cons.sizeOf_spec]
    omega

theorem journaled_parseClauses (acc : List (CatchClause Expr)) (finish : Option (List Expr))
    (fs : List Form) (sc : Scopes) : Act.Journaled (parseClauses x acc finish fs sc) := by
  match fs with
  | [] =>
    simp only [parseClauses]
    exact .pure _
  | f :: rest =>
    unfold parseClauses
    split
    · exact .pure _
    · next sc _ _ place items span rest' h =>
      cases h
      refine journaled_demand ?_
      match hitems : items with
      | [] | [_] => exact .raise _
      | cls :: name :: body =>
        refine Act.Journaled.after (fun _ => blind_catchClass cls) fun c => ?_
        refine (Act.Journaled.ofExcept (bindingName name)).bind fun n => ?_
        refine (journaled_parseOnto [] body ([n] :: sc) .top).bind fun es => ?_
        exact journaled_parseClauses (⟨c, n, es⟩ :: acc) finish rest sc
    · next sc _ _ place body span rest' h =>
      cases h
      refine journaled_demand ?_
      refine (journaled_parseOnto [] body sc .top).bind fun es => ?_
      exact journaled_parseClauses acc (some es) rest sc
    · next sc _ _ f' rest' _ _ h =>
      cases h
      refine journaled_demand ?_
      exact journaled_parseClauses acc finish rest sc
termination_by sizeOf fs
decreasing_by
  all_goals
    subst_vars
    simp only [List.cons.sizeOf_spec, Form.list.sizeOf_spec]
    omega

theorem journaled_parseTried (acc : List Expr) (fs : List Form) (sc : Scopes) :
    Act.Journaled (parseTried x acc fs sc) := by
  match fs with
  | [] =>
    simp only [parseTried]
    exact .pure _
  | f :: rest =>
    simp only [parseTried]
    split
    · exact .pure _
    · refine (Form.journaled_parse f sc .top).bind fun e => ?_
      exact journaled_parseTried (e :: acc) rest sc
termination_by sizeOf fs
decreasing_by
  all_goals
    simp only [List.cons.sizeOf_spec]
    omega

end

end Forms

namespace Expr

variable {c : Caller} (hc : c.Journaled)

include hc

theorem journaled_ofFormAt (n : Nat) (f : Form) (sc : Scopes) (p : Position) :
    Journaled (ofFormAt c n f sc p) := by
  induction n generalizing f sc p with
  | zero => exact Form.journaled_parse ⟨fun f _ _ => .raise _, hc⟩ f sc p
  | succ n ih => exact Form.journaled_parse ⟨ih, hc⟩ f sc p

theorem journaled_ofForm (f : Form) : Journaled (ofForm c f) :=
  journaled_ofFormAt hc maxExpansions f [] .top

end Expr

end TwinLisp
