import TwinLisp.Proofs.Spots.Macros

/-! The parser up to byte offsets. A form without offsets is parsed as the program without offsets,
or refused with the same message at the same line and column.

* `Parse.parameters_spots` and its kin: the rules of the special forms.
* `Form.parse_spots`: a form where it stands, given a parser for what macros yield.
* `Expr.ofForm_spots`: a whole form. -/

namespace TwinLisp

open Located (SameSpot)
open Act (Spots Becomes Blind)
open Act.Spots (Outcome)
open TwinLisp.Form (spotsAll)

theorem Form.headed_of_spots {f : Form} {name : String} {place span : Span}
    {items : List Form} (h : f.spots = .list (.symbol name place :: items) span) :
    ∃ place items span, f = .list (.symbol name place :: items) span := by
  match f with
  | .list (.symbol name' place' :: items') span' =>
    simp only [Form.spots, spotsAll, Form.list.injEq, List.cons.injEq, Form.symbol.injEq] at h
    exact ⟨place', items', span', by rw [h.1.1.1]⟩
  | .atom .. | .symbol .. | .vector .. | .map .. | .set .. | .list [] _ | .list (.atom .. :: _) _
  | .list (.list .. :: _) _ | .list (.vector .. :: _) _ | .list (.map .. :: _) _
  | .list (.set .. :: _) _ => cases h

namespace Parse

section Rules

variable {α β : Type} {U : α → β → Prop} (f : Form) (span : Span)

theorem raise_spots (cause : ParseFault) :
    Spots U SameSpot (Act.raise ⟨cause, span⟩ : Parse α) (Act.raise ⟨cause, span.spot⟩) :=
  .raise (.of_spot _ span)

theorem demand_spots {c : Prop} [Decidable c] {cause : ParseFault} {k : Unit → Parse α}
    {k' : Unit → Parse β} (h : ¬ c → Spots U SameSpot (k ()) (k' ())) :
    Spots U SameSpot (if c then Act.raise ⟨cause, span⟩ >>= k else k ())
      (if c then Act.raise ⟨cause, span.spot⟩ >>= k' else k' ()) := by
  split
  · exact fun _ => .raised (.of_spot _ span)
  · rename_i hc
    exact h hc

theorem require_spots {c : Prop} [Decidable c] {cause : ParseFault} :
    Spots (Becomes id) SameSpot (if c then Act.raise ⟨cause, span⟩ else pure () : Parse Unit)
      (if c then Act.raise ⟨cause, span.spot⟩ else pure ()) := by
  split
  · exact raise_spots span _
  · exact .pure rfl

theorem symbolName_spots (expected : String) :
    Spots (Becomes id) SameSpot (symbolName expected f) (symbolName expected f.spots) := by
  unfold symbolName
  rw [Form.symbol?_spots, Form.text_spots, Form.spots_span]
  cases f.symbol? with
  | some name => exact .pure rfl
  | none => exact raise_spots _ _

theorem named_spots {α : Type} (cause : String → ParseFault) :
    Outcome (Becomes id) SameSpot (.error ⟨cause f.text, f.span⟩ : Except ParseError α)
      (.error ⟨cause f.spots.text, f.spots.span⟩) := by
  rw [Form.text_spots, Form.spots_span]
  exact .error (.of_spot _ _)

theorem bindingName_spots :
    Outcome (Becomes id) SameSpot (bindingName f) (bindingName f.spots) := by
  have hunsupported := named_spots (α := String) f fun text =>
    .general ("Unsupported binding form: " ++ text)
  cases f with
  | symbol name span =>
    show Outcome _ _ (if isBindable name then .ok name else _)
      (if isBindable name then .ok name else _)
    split
    · exact .ok rfl
    · exact hunsupported
  | _ => exact hunsupported

theorem parameters_spots (fs : List Form) :
    Outcome (Becomes id) SameSpot (parameters span fs) (parameters span.spot (spotsAll fs)) := by
  induction fs with
  | nil => exact .ok rfl
  | cons f rest ih =>
    rw [Form.spotsAll]
    unfold parameters
    rw [Form.isSymbol, Form.isSymbol, Form.symbol?_spots]
    split
    · match rest with
      | [last] =>
        exact (bindingName_spots last).map fun x y (e : y = x) => by
          rw [e]
          rfl
      | [] | _ :: _ :: _ => exact .error (.of_spot _ span)
    · have hname := bindingName_spots f
      generalize bindingName f = r at hname
      generalize bindingName f.spots = q at hname
      cases hname with
      | error h => exact .error h
      | ok h =>
        cases h
        exact ih.map fun x y (e : y = x) => by
          rw [e]
          rfl

theorem parametersOf_spots :
    Outcome (Becomes id) SameSpot (parametersOf f) (parametersOf f.spots) := by
  have hunexpected := named_spots (α := List String × Bool) f (.unexpectedForm "parameter vector")
  cases f with
  | vector items span => exact parameters_spots span items
  | _ => exact hunexpected

theorem notAnArity?_spots (fs : List Form) :
    notAnArity? (spotsAll fs) = (notAnArity? fs).map Form.spots := by
  induction fs with
  | nil => rfl
  | cons f rest ih =>
    cases f with
    | list items =>
      cases items with
      | nil => rfl
      | cons head tail => exact ih
    | _ => rfl

theorem wrongArity_spots (form : String) (args : List Form) :
    Spots U SameSpot (Parse.wrongArity form args.length span : Parse α)
      (Parse.wrongArity form (spotsAll args).length span.spot) := by
  rw [Form.length_spotsAll]
  exact raise_spots span _

end Rules

/-! ## The rules of the special forms -/

section Rules

variable (span : Span)

theorem checkOverload_spots (earlier : List (Arity Expr)) (a : Arity Expr) :
    Spots (Becomes id) SameSpot (checkOverload span earlier a)
      (checkOverload span.spot (Expr.spotsArities earlier) a.spots) := by
  unfold checkOverload
  rw [Expr.spotsArities_eq_map, List.any_map, List.any_map]
  exact demand_spots span fun _ => require_spots span

theorem constants_spots (es : List Expr) : constants (Expr.spotsAll es) = constants es := by
  induction es with
  | nil => rfl
  | cons e rest ih =>
    unfold constants at ih ⊢
    rw [Expr.spotsAll, List.filterMap_cons, List.filterMap_cons, ih]
    cases e <;> rw [Expr.spots]

theorem distinct_spots (es : List Expr) :
    Spots (Becomes id) SameSpot (distinct es span) (distinct (Expr.spotsAll es) span.spot) := by
  unfold distinct
  rw [constants_spots]
  split
  · exact raise_spots span _
  · exact .pure rfl

theorem everyOther_spots (es : List Expr) :
    everyOther (Expr.spotsAll es) = Expr.spotsAll (everyOther es) := by
  rcases es with _ | ⟨k, _ | ⟨v, rest⟩⟩
  · rfl
  · rfl
  · have ih := everyOther_spots rest
    simp only [Expr.spotsAll, everyOther, ih]

theorem definedVar_spots (f : Form) :
    Spots (Becomes id) SameSpot (definedVar f) (definedVar f.spots) := by
  refine (symbolName_spots f "symbol").next fun name => ?_
  rw [id, Form.spots_span]
  cases splitQualified name with
  | none => exact .blind (Act.blind_intern name)
  | some pair =>
    refine (Act.Spots.blind (.ask fun _ => rfl)).next fun ns => ?_
    exact demand_spots f.span fun _ => .blind (Act.blind_intern _)

theorem reference_spots (sc : Scopes) (name : String) :
    Spots (Becomes Expr.spots) SameSpot (reference sc name span) (reference sc name span.spot) := by
  unfold reference
  cases local? name sc with
  | some b => exact .pure rfl
  | none =>
    refine (Act.Spots.blind (Act.blind_resolve? name)).next fun o => ?_
    cases o with
    | none => exact raise_spots span _
    | some v =>
      refine (Act.Spots.blind (Act.blind_isMacro v)).next fun flag => ?_
      exact demand_spots span fun _ => .pure rfl

theorem assignment_spots (sc : Scopes) (name : String) (place : Span) (value : Expr) :
    Spots (Becomes Expr.spots) SameSpot (assignment sc name place value span)
      (assignment sc name place.spot value.spots span.spot) := by
  unfold assignment
  cases local? name sc with
  | some b => exact .pure rfl
  | none =>
    refine (Act.Spots.blind (Act.blind_resolve? name)).next fun o => ?_
    cases o with
    | none => exact raise_spots place _
    | some v => exact .pure rfl

theorem theVar_spots (f : Form) :
    Spots (Becomes Expr.spots) SameSpot (theVar f span) (theVar f.spots span.spot) := by
  refine (symbolName_spots f "symbol").next fun name => ?_
  refine (Act.Spots.blind (Act.blind_resolve? name)).next fun o => ?_
  cases o with
  | none => exact raise_spots span _
  | some v => exact .pure rfl

theorem checkRecur_spots (p : Position) (count : Nat) :
    Spots (Becomes id) SameSpot (checkRecur p count span) (checkRecur p count span.spot) := by
  unfold checkRecur
  cases p.recurArity with
  | none => exact raise_spots span _
  | some expected =>
    dsimp only
    split
    · exact raise_spots span _
    · exact require_spots span

theorem catchClass_spots (f : Form) :
    Spots (Becomes id) SameSpot (catchClass f) (catchClass f.spots) := by
  refine (symbolName_spots f "exception class").next fun name => ?_
  rw [id, Form.spots_span]
  split
  · exact .pure rfl
  · exact .pure rfl
  · exact .pure rfl
  · exact .pure rfl
  · exact raise_spots f.span _

theorem isClause_spots (f : Form) : isClause f.spots = isClause f := by
  match f with
  | .list (.symbol .. :: _) _ | .atom .. | .symbol .. | .vector .. | .map .. | .set ..
  | .list [] _ | .list (.atom .. :: _) _ | .list (.list .. :: _) _ | .list (.vector .. :: _) _
  | .list (.map .. :: _) _ | .list (.set .. :: _) _ => rfl

end Rules

end Parse

/-! ## Forms -/

theorem ParseError.ofExpansion_sameSpot {e e' : RuntimeError} (h : SameSpot e e') :
    SameSpot (ParseError.ofExpansion e) (ParseError.ofExpansion e') := by
  have hmessage : e'.message = e.message := congrArg RuntimeFault.text h.cause
  rw [SameSpot, ofExpansion, ofExpansion, hmessage, Located.spot, Located.spot, h.span]

/-- Parsers for what macros yield that do without offsets what they do with them, and calls. -/
structure Expansion.Spots (x y : Expansion) : Prop where
  parse : ∀ f sc p, Act.Spots (Becomes Expr.spots) SameSpot (x.parse f sc p) (y.parse f.spots sc p)
  call : Caller.Spots x.call y.call

theorem Parse.defineMacro_spots {x y : Expansion} (span : Span) (name : Form) {fs : List Form}
    {sc : Scopes} (h : Act.Spots (Becomes FnLiteral.spots) SameSpot
      (parseFn x name.symbol? span fs sc) (parseFn y name.symbol? span.spot (spotsAll fs) sc)) :
    Act.Spots (Becomes Expr.spots) SameSpot (do
        let v ← definedVar name
        Act.updateStore (Store.setMacro v true)
        return .define v (some (.fn (← parseFn x name.symbol? span fs sc) span)) span) (do
        let v ← definedVar name.spots
        Act.updateStore (Store.setMacro v true)
        return .define v (some (.fn (← parseFn y name.spots.symbol? span.spot (spotsAll fs) sc)
          span.spot)) span.spot) := by
  refine (definedVar_spots name).next fun v => ?_
  refine (Act.Spots.blind (Act.blind_setMacro v true)).next fun _ => ?_
  rw [Form.symbol?_spots]
  refine h.next fun f => ?_
  exact .pure (by rw [Becomes, Expr.spots, Expr.spotsOption, Expr.spots_fn, id])

section Forms

open Parse
open TwinLisp.Expr (spotsBindings spotsArities spotsCatches spotsBody)

set_option linter.unusedSectionVars false

variable {x y : Expansion} (hx : Expansion.Spots x y)

include hx

theorem Expansion.Spots.rewrite? (form : Form) (name : String) (args : List Form) (sc : Scopes)
    (p : Position) : Act.Spots (Becomes (Option.map Expr.spots)) SameSpot
      (x.rewrite? form name args sc p) (y.rewrite? form.spots name (spotsAll args) sc p) := by
  have hsome : ∀ f : Form, Act.Spots (Becomes (Option.map Expr.spots)) SameSpot
      (do return some (← x.parse f sc p)) (do return some (← y.parse f.spots sc p)) := fun f =>
    (hx.parse f sc p).bind_pure fun _ _ e => congrArg some e
  unfold Expansion.rewrite?
  split
  · exact .pure rfl
  · refine (Macro.expandBuiltin_spots form).next fun o => ?_
    cases o with
    | some f => exact hsome f
    | none =>
      refine (Act.Spots.blind (Act.blind_resolve? name)).next fun v => ?_
      cases v with
      | none => exact .pure rfl
      | some v =>
        refine (Act.Spots.blind (Act.blind_isMacro v)).next fun flag => ?_
        cases flag with
        | false => exact .pure rfl
        | true =>
          refine (Act.Spots.blind (Act.blind_varValue? v)).next fun m => ?_
          rw [Form.spots_span]
          cases m with
          | none => exact .pure rfl
          | some f =>
            refine ((Macro.expandUser_spots hx.call f args form.span).mapFault
              fun _ _ => ParseError.ofExpansion_sameSpot).next fun expansion => ?_
            exact hsome expansion

mutual

theorem Form.parse_spots (f : Form) (sc : Scopes) (p : Position) :
    Act.Spots (Becomes Expr.spots) SameSpot (f.parse x sc p) (f.spots.parse y sc p) := by
  match f with
  | .atom v span =>
    simp only [Form.spots, Form.parse]
    exact .pure rfl
  | .symbol name span =>
    simp only [Form.spots, Form.parse]
    exact reference_spots span sc name
  | .vector items span =>
    simp only [Form.spots, Form.parse]
    refine (parseOnto_spots [] items sc p.nonTail).next fun es => ?_
    exact .pure rfl
  | .set items span =>
    simp only [Form.spots, Form.parse]
    refine (parseOnto_spots [] items sc p.nonTail).next fun es => ?_
    exact (distinct_spots span es).next fun _ => .pure rfl
  | .map items span =>
    simp only [Form.spots, Form.parse]
    refine (parseOnto_spots [] items sc p.nonTail).next fun es => ?_
    rw [everyOther_spots]
    exact (distinct_spots span _).next fun _ => .pure rfl
  | .list [] span =>
    simp only [Form.spots, Form.spotsAll, Form.parse]
    exact .pure rfl
  | .list (head :: args) span =>
    have hspecial : Special.ofForm? head.spots = Special.ofForm? head := by
      rw [Special.ofForm?, Special.ofForm?, Form.symbol?_spots]
    rw [Form.spots, Form.spotsAll]
    unfold Form.parse
    dsimp only
    rw [hspecial]
    cases Special.ofForm? head with
    | none =>
      -- A call, perhaps of a macro.
      have hcall : Act.Spots (Becomes Expr.spots) SameSpot (do
          let callee ← head.parse x sc p.nonTail
          return .call callee (← parseOnto x [] args sc p.nonTail) span) (do
          let callee ← head.spots.parse y sc p.nonTail
          return .call callee (← parseOnto y [] (spotsAll args) sc p.nonTail) span.spot) := by
        refine (Form.parse_spots head sc p.nonTail).next fun callee => ?_
        refine (parseOnto_spots [] args sc p.nonTail).next fun es => ?_
        exact .pure rfl
      dsimp only
      rw [Form.symbol?_spots]
      cases head.symbol? with
      | none => exact hcall
      | some name =>
        refine (hx.rewrite? (.list (head :: args) span) name args sc p).next fun o => ?_
        cases o with
        | some e => exact .pure rfl
        | none => exact hcall
    | some special =>
      cases special with
      | quote =>
        match args with
        | [f] => exact .pure (by rw [Becomes, Form.toValue_spots, Expr.spots])
        | [] | _ :: _ :: _ => exact wrongArity_spots span "quote" _
      | cond =>
        match args with
        | [test, yes] =>
          refine (Form.parse_spots test sc p.nonTail).next fun t => ?_
          refine (Form.parse_spots yes sc p).next fun e => ?_
          exact .pure rfl
        | [test, yes, no] =>
          refine (Form.parse_spots test sc p.nonTail).next fun t => ?_
          refine (Form.parse_spots yes sc p).next fun e => ?_
          refine (Form.parse_spots no sc p).next fun e' => ?_
          exact .pure rfl
        | [] | [_] | _ :: _ :: _ :: _ :: _ => exact wrongArity_spots span "if" _
      | block =>
        refine (parseBody_spots [] args sc p).next fun es => ?_
        exact .pure rfl
      | letIn =>
        match args with
        | .vector pairs place :: body =>
          simp only [Form.spots, Form.spotsAll, Form.length_spotsAll]
          refine demand_spots span fun _ => ?_
          refine (parseBindings_spots [] pairs ([] :: sc) p.nonTail).next fun r => ?_
          obtain ⟨bs, inner⟩ := r
          refine (parseBody_spots [] body inner p).next fun es => ?_
          exact .pure rfl
        | [] | .atom .. :: _ | .symbol .. :: _ | .list .. :: _ | .map .. :: _ | .set .. :: _ =>
          exact raise_spots span _
      | loop =>
        match args with
        | .vector pairs place :: body =>
          simp only [Form.spots, Form.spotsAll, Form.length_spotsAll]
          refine demand_spots span fun _ => ?_
          refine (parseBindings_spots [] pairs ([] :: sc) p.nonTail).next fun r => ?_
          obtain ⟨bs, inner⟩ := r
          simp only [Prod.map, id, Expr.length_spotsBindings]
          refine (parseBody_spots [] body inner (.body bs.length)).next fun es => ?_
          exact .pure rfl
        | [] | .atom .. :: _ | .symbol .. :: _ | .list .. :: _ | .map .. :: _ | .set .. :: _ =>
          exact raise_spots span _
      | recur =>
        rw [Form.length_spotsAll]
        refine (checkRecur_spots span p args.length).next fun _ => ?_
        refine (parseOnto_spots [] args sc p.nonTail).next fun es => ?_
        exact .pure rfl
      | fn =>
        match args with
        | .symbol name place :: rest =>
          refine (parseFn_spots (some name) span rest sc).next fun f => ?_
          exact .pure (Expr.spots_fn f span).symm
        | [] =>
          refine (parseFn_spots none span [] sc).next fun f => ?_
          exact .pure (Expr.spots_fn f span).symm
        | .atom v s :: rest | .list v s :: rest | .vector v s :: rest | .map v s :: rest
        | .set v s :: rest =>
          refine (parseFn_spots none span _ sc).next fun f => ?_
          exact .pure (Expr.spots_fn f span).symm
      | define =>
        match args with
        | [name] =>
          refine (definedVar_spots name).next fun v => ?_
          exact .pure rfl
        | [name, value] | [name, _, value] =>
          refine (definedVar_spots name).next fun v => ?_
          refine (Form.parse_spots value sc p.nonTail).next fun e => ?_
          exact .pure rfl
        | [] | _ :: _ :: _ :: _ :: _ => exact wrongArity_spots span "def" _
      | assign =>
        match args with
        | [target, value] =>
          refine (symbolName_spots target "symbol").next fun name => ?_
          refine (Form.parse_spots value sc p.nonTail).next fun e => ?_
          rw [Form.spots_span]
          exact assignment_spots span sc name target.span e
        | [] | [_] | _ :: _ :: _ :: _ => exact wrongArity_spots span "set!" _
      | theVar =>
        match args with
        | [f] => exact theVar_spots span f
        | [] | _ :: _ :: _ => exact wrongArity_spots span "var" _
      | throw =>
        match args with
        | [value] =>
          refine (Form.parse_spots value sc p.nonTail).next fun e => ?_
          exact .pure rfl
        | [] | _ :: _ :: _ => exact wrongArity_spots span "throw" _
      | attempt =>
        refine (parseClauses_spots [] none args sc).next fun r => ?_
        obtain ⟨catches, finish⟩ := r
        refine (parseTried_spots [] args sc).next fun es => ?_
        exact .pure rfl
      | defineMacro =>
        match args with
        | [] | [_] => exact wrongArity_spots span "defmacro" _
        | name :: first :: rest =>
          cases first with
          | atom v place =>
            cases v with
            | str text =>
              cases rest with
              | nil =>
                exact defineMacro_spots span name
                  (parseFn_spots name.symbol? span [.atom (.str text) place] sc)
              | cons body more =>
                exact defineMacro_spots span name
                  (parseFn_spots name.symbol? span (body :: more) sc)
            | _ =>
              exact defineMacro_spots span name
                (parseFn_spots name.symbol? span (.atom _ place :: rest) sc)
          | _ => exact defineMacro_spots span name (parseFn_spots name.symbol? span (_ :: rest) sc)
termination_by sizeOf f
decreasing_by
  all_goals
    subst_vars
    simp only [Form.vector.sizeOf_spec, Form.set.sizeOf_spec, Form.map.sizeOf_spec,
      Form.list.sizeOf_spec, List.cons.sizeOf_spec]
    omega

theorem parseOnto_spots (acc : List Expr) (fs : List Form) (sc : Scopes) (p : Position) :
    Act.Spots (Becomes Expr.spotsAll) SameSpot (parseOnto x acc fs sc p)
      (parseOnto y (Expr.spotsAll acc) (spotsAll fs) sc p) := by
  match fs with
  | [] =>
    simp only [Form.spotsAll, parseOnto]
    exact .pure (Expr.spotsAll_reverse acc).symm
  | f :: rest =>
    simp only [Form.spotsAll, parseOnto]
    refine (Form.parse_spots f sc p).next fun e => ?_
    exact parseOnto_spots (e :: acc) rest sc p
termination_by sizeOf fs
decreasing_by
  all_goals
    simp only [List.cons.sizeOf_spec]
    omega

theorem parseBody_spots (acc : List Expr) (fs : List Form) (sc : Scopes) (p : Position) :
    Act.Spots (Becomes Expr.spotsAll) SameSpot (parseBody x acc fs sc p)
      (parseBody y (Expr.spotsAll acc) (spotsAll fs) sc p) := by
  match fs with
  | [] =>
    simp only [Form.spotsAll, parseBody]
    exact .pure (Expr.spotsAll_reverse acc).symm
  | [f] =>
    simp only [Form.spotsAll, parseBody]
    refine (Form.parse_spots f sc p).next fun e => ?_
    exact .pure (Expr.spotsAll_reverse (e :: acc)).symm
  | f :: f' :: rest =>
    simp only [Form.spotsAll, parseBody]
    refine (Form.parse_spots f sc p.nonTail).next fun e => ?_
    exact parseBody_spots (e :: acc) (f' :: rest) sc p
termination_by sizeOf fs
decreasing_by
  all_goals
    simp only [List.cons.sizeOf_spec]
    omega

theorem parseBindings_spots (acc : List (Bound Expr)) (fs : List Form) (sc : Scopes)
    (p : Position) :
    Act.Spots (Becomes (Prod.map spotsBindings id)) SameSpot (parseBindings x acc fs sc p)
      (parseBindings y (spotsBindings acc) (spotsAll fs) sc p) := by
  match fs with
  | [] | [_] =>
    simp only [Form.spotsAll, parseBindings]
    exact .pure (by rw [Becomes, Prod.map, Expr.spotsBindings_reverse, id])
  | name :: init :: rest =>
    simp only [Form.spotsAll, parseBindings]
    refine (Act.Spots.ofExcept (bindingName_spots name)).next fun n => ?_
    refine (Form.parse_spots init sc p).next fun e => ?_
    exact parseBindings_spots (⟨n, e⟩ :: acc) rest (sc.declare n) p
termination_by sizeOf fs
decreasing_by
  all_goals
    simp only [List.cons.sizeOf_spec]
    omega

theorem parseFn_spots (name : Option String) (span : Span) (fs : List Form) (sc : Scopes) :
    Act.Spots (Becomes FnLiteral.spots) SameSpot (parseFn x name span fs sc)
      (parseFn y name span.spot (spotsAll fs) sc) := by
  match fs with
  | .vector params place :: body =>
    simp only [Form.spots, Form.spotsAll, parseFn]
    refine (Act.Spots.ofExcept (parameters_spots place params)).next fun r => ?_
    obtain ⟨names, variadic⟩ := r
    refine (parseBody_spots [] body _ (.body names.length)).next fun es => ?_
    exact .pure rfl
  | .list items place :: more =>
    have harity := notAnArity?_spots (.list items place :: more)
    rw [Form.spotsAll, Form.spots] at harity ⊢
    unfold parseFn
    dsimp only
    rw [harity]
    cases notAnArity? (.list items place :: more) with
    | some f =>
      simp only [Option.map_some, Form.text_spots, Form.spots_span]
      exact fun _ => .raised (.of_spot _ f.span)
    | none =>
      match items with
      | [] => exact raise_spots span _
      | params :: body =>
        refine (Act.Spots.ofExcept (parametersOf_spots params)).next fun r => ?_
        obtain ⟨names, variadic⟩ := r
        refine (parseBody_spots [] body _ (.body names.length)).next fun es => ?_
        refine (parseArities_spots name span [⟨names, variadic, es⟩] more sc).next fun as => ?_
        exact .pure rfl
  | [] | .atom .. :: _ | .symbol .. :: _ | .map .. :: _ | .set .. :: _ => exact raise_spots span _
termination_by sizeOf fs
decreasing_by
  all_goals
    simp only [Form.vector.sizeOf_spec, Form.list.sizeOf_spec, List.cons.sizeOf_spec]
    omega

theorem parseArities_spots (name : Option String) (span : Span) (acc : List (Arity Expr))
    (fs : List Form) (sc : Scopes) :
    Act.Spots (Becomes spotsArities) SameSpot (parseArities x name span acc fs sc)
      (parseArities y name span.spot (spotsArities acc) (spotsAll fs) sc) := by
  match fs with
  | .list (params :: body) place :: more =>
    simp only [Form.spots, Form.spotsAll, parseArities]
    refine (Act.Spots.ofExcept (parametersOf_spots params)).next fun r => ?_
    obtain ⟨names, variadic⟩ := r
    refine (parseBody_spots [] body _ (.body names.length)).next fun es => ?_
    refine (checkOverload_spots span acc ⟨names, variadic, es⟩).next fun _ => ?_
    exact parseArities_spots name span (⟨names, variadic, es⟩ :: acc) more sc
  | [] | .atom .. :: _ | .symbol .. :: _ | .vector .. :: _ | .map .. :: _ | .set .. :: _
  | .list [] _ :: _ => exact .pure (Expr.spotsArities_reverse acc).symm
termination_by sizeOf fs
decreasing_by
  all_goals
    simp only [Form.list.sizeOf_spec, List.cons.sizeOf_spec]
    omega

theorem parseClauses_spots (acc : List (CatchClause Expr)) (finish : Option (List Expr))
    (fs : List Form) (sc : Scopes) :
    Act.Spots (Becomes (Prod.map spotsCatches spotsBody)) SameSpot
      (parseClauses x acc finish fs sc)
      (parseClauses y (spotsCatches acc) (spotsBody finish) (spotsAll fs) sc) := by
  have hended : (spotsBody finish).isSome = finish.isSome := by cases finish <;> rfl
  have hnone : (spotsCatches acc).isEmpty = acc.isEmpty := by
    rcases acc with _ | ⟨⟨cls, name, body⟩, rest⟩ <;> rfl
  match fs with
  | [] =>
    simp only [Form.spotsAll, parseClauses]
    exact .pure (by rw [Becomes, Prod.map, Expr.spotsCatches_reverse])
  | f :: rest =>
    -- A clause is told by its head, so the cases are those of the form without offsets.
    by_cases hcatch : ∃ place items span, f = .list (.symbol "catch" place :: items) span
    · obtain ⟨place, items, span, rfl⟩ := hcatch
      simp only [Form.spots, Form.spotsAll]
      unfold parseClauses
      dsimp only
      rw [hended]
      refine demand_spots span fun _ => ?_
      match hitems : items with
      | [] | [_] => exact wrongArity_spots span "catch" _
      | cls :: name :: body =>
        refine (catchClass_spots cls).next fun c => ?_
        refine (Act.Spots.ofExcept (bindingName_spots name)).next fun n => ?_
        refine (parseOnto_spots [] body ([n] :: sc) .top).next fun es => ?_
        exact parseClauses_spots (⟨c, n, es⟩ :: acc) finish rest sc
    · by_cases hfinally : ∃ place body span, f = .list (.symbol "finally" place :: body) span
      · obtain ⟨place, body, span, rfl⟩ := hfinally
        simp only [Form.spots, Form.spotsAll]
        unfold parseClauses
        dsimp only
        rw [hended]
        refine demand_spots span fun _ => ?_
        refine (parseOnto_spots [] body sc .top).next fun es => ?_
        exact parseClauses_spots acc (some es) rest sc
      · rw [Form.spotsAll, parseClauses, parseClauses, hended, hnone, Form.spots_span]
        · refine demand_spots f.span fun _ => ?_
          exact parseClauses_spots acc finish rest sc
        · exact fun _ _ _ h => hcatch (Form.headed_of_spots h)
        · exact fun _ _ _ h => hfinally (Form.headed_of_spots h)
        · exact fun place items span h => hcatch ⟨place, items, span, h⟩
        · exact fun place items span h => hfinally ⟨place, items, span, h⟩
termination_by sizeOf fs
decreasing_by
  all_goals
    subst_vars
    simp only [List.cons.sizeOf_spec, Form.list.sizeOf_spec]
    omega

theorem parseTried_spots (acc : List Expr) (fs : List Form) (sc : Scopes) :
    Act.Spots (Becomes Expr.spotsAll) SameSpot (parseTried x acc fs sc)
      (parseTried y (Expr.spotsAll acc) (spotsAll fs) sc) := by
  match fs with
  | [] =>
    simp only [Form.spotsAll, parseTried]
    exact .pure (Expr.spotsAll_reverse acc).symm
  | f :: rest =>
    simp only [Form.spotsAll, parseTried, isClause_spots]
    split
    · exact .pure (Expr.spotsAll_reverse acc).symm
    · refine (Form.parse_spots f sc .top).next fun e => ?_
      exact parseTried_spots (e :: acc) rest sc
termination_by sizeOf fs
decreasing_by
  all_goals
    simp only [List.cons.sizeOf_spec]
    omega

end

end Forms

namespace Expr

variable {c d : Caller} (hc : Caller.Spots c d)

include hc

theorem ofFormAt_spots (n : Nat) (f : Form) (sc : Scopes) (p : Position) :
    Act.Spots (Becomes spots) SameSpot (ofFormAt c n f sc p) (ofFormAt d n f.spots sc p) := by
  induction n generalizing f sc p with
  | zero =>
    refine Form.parse_spots ⟨fun f _ _ => ?_, hc⟩ f sc p
    dsimp only
    rw [Form.spots_span]
    exact Parse.raise_spots f.span _
  | succ n ih => exact Form.parse_spots ⟨ih, hc⟩ f sc p

theorem ofForm_spots (f : Form) :
    Act.Spots (Becomes spots) SameSpot (ofForm c f) (ofForm d f.spots) :=
  ofFormAt_spots hc maxExpansions f [] .top

end Expr

end TwinLisp
