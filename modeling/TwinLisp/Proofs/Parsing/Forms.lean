import TwinLisp.Proofs.Parsing.Tracking

/-! The parser at a desk is the parser. For each kind of form: the same expression or fault, the same state
after it, and a stack that is left as it was found.

* `Desk.Beside`: surroundings that yield the same for what macros yield.
* `Desk.track_follows`: a form where it stands, given such surroundings.
* `Desk.trackAt_follows`: what macros yield, below a number of further expansions. -/

namespace TwinLisp.Desk

open Parse

/-- Surroundings of the two parsers, with the same calls. -/
structure Beside (c : Caller) (n : Nat) (x : Expansion) (y : TwinLisp.Expansion) : Prop where
  parse : ∀ f sc p, Follows c n sc (Act.expanding f.span (x.parse f p)) (y.parse f sc p)
  left : x.call = c
  right : y.call = c

variable {c : Caller} {n : Nat} {x : Expansion} {y : TwinLisp.Expansion} {sc : Scopes}

/-! ## Macro calls -/

theorem rewrite?_follows (hx : Beside c n x y) (form : Form) (name : String) (args : List Form)
    (p : Position) : Follows c n sc (x.rewrite? form name args p) (y.rewrite? form name args sc p) := by
  have hsome : ∀ f, Follows c n sc (do return some (← Act.expanding f.span (x.parse f p)))
      (do return some (← y.parse f sc p)) := fun f => (hx.parse f sc p).bind_pure some
  unfold Expansion.rewrite? TwinLisp.Expansion.rewrite?
  refine .ask ?_
  split
  · exact .pure none
  · refine (Follows.lift (Macro.gentle_expandBuiltin form)).bind fun expansion => ?_
    cases expansion with
    | some f => exact hsome f
    | none =>
      refine (Follows.lift (.resolve? name)).bind fun v => ?_
      cases v with
      | none => exact .pure none
      | some v =>
        refine (Follows.lift (.askStore _)).bind fun flag => ?_
        cases flag with
        | false => exact .pure none
        | true =>
          refine (Follows.lift (.askStore _)).bind fun f => ?_
          cases f with
          | none => exact .pure _
          | some f =>
            dsimp only
            rw [hx.left, hx.right]
            exact (Follows.expandUser f args form.span).bind fun f => hsome f

/-! ## Forms -/

theorem defineMacro_follows (name : Form) (span : Span) {a : Act (FnLiteral Expr)}
    {b : Parse (FnLiteral Expr)} (h : Follows c n sc a b) :
    Follows c n sc (do
        let v ← Act.lift (definedVar name)
        Act.mark v
        return Expr.define v (some (.fn (← a) span)) span) (do
      let v ← definedVar name
      TwinLisp.Act.updateStore (Store.setMacro v true)
      return Expr.define v (some (.fn (← b) span)) span) :=
  (Follows.lift (gentle_definedVar name)).bind fun v =>
    (Follows.mark v).bind fun _ => h.bind_pure fun f => Expr.define v (some (.fn f span)) span

section Forms

set_option linter.unusedSectionVars false

variable (hx : Beside c n x y)

include hx

mutual

theorem track_follows (f : Form) (sc : Scopes) (p : Position) :
    Follows c n sc (f.track x p) (f.parse y sc p) := by
  match f with
  | .atom v span =>
    simp only [Form.track, Form.parse]
    exact .pure _
  | .symbol name span =>
    simp only [Form.track, Form.parse]
    exact .ask (.lift (gentle_reference sc name span))
  | .vector items span =>
    simp only [Form.track, Form.parse]
    exact (trackOnto_follows [] items sc p.nonTail).bind_pure fun es => Expr.vector es span
  | .set items span =>
    simp only [Form.track, Form.parse]
    refine (trackOnto_follows [] items sc p.nonTail).bind fun es => ?_
    exact (Follows.lift (gentle_distinct es span)).bind fun _ => .pure _
  | .map items span =>
    simp only [Form.track, Form.parse]
    refine (trackOnto_follows [] items sc p.nonTail).bind fun es => ?_
    exact (Follows.lift (gentle_distinct (everyOther es) span)).bind fun _ => .pure _
  | .list [] span =>
    simp only [Form.track, Form.parse]
    exact .pure _
  | .list (head :: args) span =>
    unfold Form.track Form.parse
    dsimp only
    cases Special.ofForm? head with
    | some special =>
      cases special with
      | quote =>
        match args with
        | [f] => exact .pure _
        | [] | _ :: _ :: _ => exact .lift (.raise _)
      | cond =>
        match args with
        | [test, yes] =>
          refine (track_follows test sc p.nonTail).bind fun test => ?_
          exact (track_follows yes sc p).bind_pure fun yes => Expr.cond test yes none span
        | [test, yes, no] =>
          refine (track_follows test sc p.nonTail).bind fun test => ?_
          refine (track_follows yes sc p).bind fun yes => ?_
          exact (track_follows no sc p).bind_pure fun no => Expr.cond test yes (some no) span
        | [] | [_] | _ :: _ :: _ :: _ :: _ => exact .lift (.raise _)
      | block => exact (trackBody_follows [] args sc p).bind_pure fun es => Expr.block es span
      | letIn =>
        match args with
        | .vector pairs place :: body =>
          refine .guard ?_
          exact .binding (trackBindings_tracks [] pairs [] sc p.nonTail)
            (fun _ k => trackBody_follows [] body k p) fun bs es => Expr.letIn bs es span
        | [] | .atom .. :: _ | .symbol .. :: _ | .list .. :: _ | .map .. :: _ | .set .. :: _ =>
          exact .lift (.fail _ span)
      | loop =>
        match args with
        | .vector pairs place :: body =>
          refine .guard ?_
          exact .binding (trackBindings_tracks [] pairs [] sc p.nonTail)
            (fun bs k => trackBody_follows [] body k (.body bs.length)) fun bs es => Expr.loop bs es span
        | [] | .atom .. :: _ | .symbol .. :: _ | .list .. :: _ | .map .. :: _ | .set .. :: _ =>
          exact .lift (.fail _ span)
      | recur =>
        refine (Follows.lift (gentle_checkRecur p args.length span)).bind fun _ => ?_
        exact (trackOnto_follows [] args sc p.nonTail).bind_pure fun es => Expr.recur es span
      | fn =>
        match args with
        | .symbol name place :: rest =>
          exact (trackFn_follows (some name) span rest sc).bind_pure fun f => Expr.fn f span
        | [] => exact (trackFn_follows none span [] sc).bind_pure fun f => Expr.fn f span
        | .atom v s :: rest | .list v s :: rest | .vector v s :: rest | .map v s :: rest
        | .set v s :: rest =>
          exact (trackFn_follows none span _ sc).bind_pure fun f => Expr.fn f span
      | define =>
        match args with
        | [name] =>
          exact (Follows.lift (gentle_definedVar name)).bind_pure fun v => Expr.define v none span
        | [name, value] =>
          refine (Follows.lift (gentle_definedVar name)).bind fun v => ?_
          exact (track_follows value sc p.nonTail).bind_pure fun e => Expr.define v (some e) span
        | [name, doc, value] =>
          refine (Follows.lift (gentle_definedVar name)).bind fun v => ?_
          exact (track_follows value sc p.nonTail).bind_pure fun e => Expr.define v (some e) span
        | [] | _ :: _ :: _ :: _ :: _ => exact .lift (.raise _)
      | assign =>
        match args with
        | [target, value] =>
          refine (Follows.lift (gentle_symbolName "symbol" target)).bind fun name => ?_
          refine (track_follows value sc p.nonTail).bind fun e => ?_
          exact .ask (.lift (gentle_assignment sc name target.span e span))
        | [] | [_] | _ :: _ :: _ :: _ => exact .lift (.raise _)
      | theVar =>
        match args with
        | [f] => exact .lift (gentle_theVar f span)
        | [] | _ :: _ :: _ => exact .lift (.raise _)
      | throw =>
        match args with
        | [value] => exact (track_follows value sc p.nonTail).bind_pure fun e => Expr.throw e span
        | [] | _ :: _ :: _ => exact .lift (.raise _)
      | attempt =>
        refine (trackClauses_follows [] none args sc).bind fun r => ?_
        exact (trackTried_follows [] args sc).bind_pure fun es => Expr.attempt es r.1 r.2 span
      | defineMacro =>
        -- What follows the name is a text, which is passed over, or the function already.
        match args with
        | [] | [_] => exact .lift (.raise _)
        | [name, last] =>
          have hplain := defineMacro_follows name span (trackFn_follows name.symbol? span [last] sc)
          cases last with
          | atom v => cases v <;> exact hplain
          | symbol | list | vector | map | set => exact hplain
        | name :: first :: second :: rest =>
          have hplain := defineMacro_follows name span
            (trackFn_follows name.symbol? span (first :: second :: rest) sc)
          have hdoc := defineMacro_follows name span
            (trackFn_follows name.symbol? span (second :: rest) sc)
          cases first with
          | atom v =>
            cases v with
            | str => exact hdoc
            | _ => exact hplain
          | symbol | list | vector | map | set => exact hplain
    | none =>
      have hcall : Follows c n sc (do
          let callee ← head.track x p.nonTail
          return Expr.call callee (← trackOnto x [] args p.nonTail) span) (do
            let callee ← head.parse y sc p.nonTail
            return Expr.call callee (← parseOnto y [] args sc p.nonTail) span) :=
        (track_follows head sc p.nonTail).bind fun callee =>
          (trackOnto_follows [] args sc p.nonTail).bind_pure fun es => Expr.call callee es span
      cases head.symbol? with
      | some name =>
        refine (rewrite?_follows hx _ name args p).bind fun e => ?_
        cases e with
        | some e => exact .pure e
        | none => exact hcall
      | none => exact hcall
termination_by sizeOf f
decreasing_by
  all_goals
    subst_vars
    simp only [Form.vector.sizeOf_spec, Form.set.sizeOf_spec, Form.map.sizeOf_spec, Form.list.sizeOf_spec,
      List.cons.sizeOf_spec]
    omega

theorem trackOnto_follows (acc : List Expr) (fs : List Form) (sc : Scopes) (p : Position) :
    Follows c n sc (trackOnto x acc fs p) (parseOnto y acc fs sc p) := by
  match fs with
  | [] =>
    simp only [trackOnto, parseOnto]
    exact .pure _
  | f :: rest =>
    simp only [trackOnto, parseOnto]
    exact (track_follows f sc p).bind fun e => trackOnto_follows (e :: acc) rest sc p
termination_by sizeOf fs
decreasing_by
  all_goals
    simp only [List.cons.sizeOf_spec]
    omega

theorem trackBody_follows (acc : List Expr) (fs : List Form) (sc : Scopes) (p : Position) :
    Follows c n sc (trackBody x acc fs p) (parseBody y acc fs sc p) := by
  match fs with
  | [] =>
    simp only [trackBody, parseBody]
    exact .pure _
  | [f] =>
    simp only [trackBody, parseBody]
    exact (track_follows f sc p).bind_pure fun e => (e :: acc).reverse
  | f :: f' :: rest =>
    simp only [trackBody, parseBody]
    exact (track_follows f sc p.nonTail).bind fun e => trackBody_follows (e :: acc) (f' :: rest) sc p
termination_by sizeOf fs
decreasing_by
  all_goals
    simp only [List.cons.sizeOf_spec]
    omega

/-- The names are in the innermost scope, which is there also after a fault. -/
theorem trackBindings_tracks (acc : List (Bound Expr)) (fs : List Form) (names : List String)
    (sc : Scopes) (p : Position) :
    Tracks c n (names :: sc) (fun bs r k => r = (bs, k) ∧ k.tail = sc) (fun k => k.tail = sc)
      (trackBindings x acc fs p) (parseBindings y acc fs (names :: sc) p) := by
  match fs with
  | [] | [_] =>
    simp only [trackBindings, parseBindings]
    exact .pure ⟨rfl, rfl⟩
  | name :: init :: rest =>
    simp only [trackBindings, parseBindings]
    refine (Follows.lift (.ofExcept (bindingName name))).next rfl fun name => ?_
    refine (track_follows init (names :: sc) p).next rfl fun init => ?_
    exact .declare (trackBindings_tracks (⟨name, init⟩ :: acc) rest (name :: names) sc p)
termination_by sizeOf fs
decreasing_by
  all_goals
    simp only [List.cons.sizeOf_spec]
    omega

theorem trackFn_follows (name : Option String) (span : Span) (fs : List Form) (sc : Scopes) :
    Follows c n sc (trackFn x name span fs) (parseFn y name span fs sc) := by
  match fs with
  | .vector params place :: body =>
    simp only [trackFn, parseFn]
    refine (Follows.lift (.ofExcept (parameters place params))).bind fun r => ?_
    exact (trackBody_follows [] body (sc.enterCall (name.getD "") r.1) (.body r.1.length)).inside.bind_pure fun body =>
      FnLiteral.mk name [⟨r.1, r.2, body⟩] span none
  | .list items place :: more =>
    unfold trackFn parseFn
    dsimp only
    cases notAnArity? (.list items place :: more) with
    | some f => exact .raise_bind _ _ _
    | none =>
      match items with
      | [] => exact .lift (.fail _ span)
      | params :: body =>
        refine (Follows.lift (.ofExcept (parametersOf params))).bind fun r => ?_
        refine (trackBody_follows [] body (sc.enterCall (name.getD "") r.1) (.body r.1.length)).inside.bind fun body => ?_
        exact (trackArities_follows name span [⟨r.1, r.2, body⟩] more sc).bind_pure fun arities =>
          FnLiteral.mk name arities span none
  | [] | .atom .. :: _ | .symbol .. :: _ | .map .. :: _ | .set .. :: _ =>
    simp only [trackFn, parseFn]
    exact .lift (.fail _ span)
termination_by sizeOf fs
decreasing_by
  all_goals
    simp only [List.cons.sizeOf_spec, Form.list.sizeOf_spec]
    omega

theorem trackArities_follows (name : Option String) (span : Span) (acc : List (Arity Expr))
    (fs : List Form) (sc : Scopes) :
    Follows c n sc (trackArities x name span acc fs) (parseArities y name span acc fs sc) := by
  match fs with
  | .list (params :: body) place :: more =>
    simp only [trackArities, parseArities]
    refine (Follows.lift (.ofExcept (parametersOf params))).bind fun r => ?_
    refine (trackBody_follows [] body (sc.enterCall (name.getD "") r.1) (.body r.1.length)).inside.bind fun body => ?_
    refine (Follows.lift (gentle_checkOverload span acc _)).bind fun _ => ?_
    exact trackArities_follows name span (⟨r.1, r.2, body⟩ :: acc) more sc
  | [] | .list [] _ :: _ | .vector .. :: _ | .atom .. :: _ | .symbol .. :: _ | .map .. :: _
  | .set .. :: _ =>
    simp only [trackArities, parseArities]
    exact .pure _
termination_by sizeOf fs
decreasing_by
  all_goals
    simp only [List.cons.sizeOf_spec, Form.list.sizeOf_spec]
    omega

theorem trackClauses_follows (acc : List (CatchClause Expr)) (finish : Option (List Expr))
    (fs : List Form) (sc : Scopes) :
    Follows c n sc (trackClauses x acc finish fs) (parseClauses y acc finish fs sc) := by
  unfold trackClauses
  split
  · simp only [parseClauses]
    exact .pure _
  · rename_i place items span rest
    unfold parseClauses
    refine .guard ?_
    match hi : items with
    | cls :: name :: body =>
      refine (Follows.lift (gentle_catchClass cls)).bind fun cls => ?_
      refine (Follows.lift (.ofExcept (bindingName name))).bind fun name => ?_
      refine (trackOnto_follows [] body ([name] :: sc) .top).inside.bind fun body => ?_
      exact trackClauses_follows (⟨cls, name, body⟩ :: acc) finish rest sc
    | [] | [_] => exact .lift (.raise _)
  · rename_i place body span rest
    simp only [parseClauses]
    refine .guard ?_
    refine (trackOnto_follows [] body sc .top).bind fun body => ?_
    exact trackClauses_follows acc (some body) rest sc
  · rename_i f rest hcatch hfinally
    rw [parseClauses]
    · refine .guard ?_
      exact trackClauses_follows acc finish rest sc
    · exact hcatch
    · exact hfinally
termination_by sizeOf fs
decreasing_by
  all_goals
    subst_vars
    simp only [List.cons.sizeOf_spec, Form.list.sizeOf_spec]
    omega

theorem trackTried_follows (acc : List Expr) (fs : List Form) (sc : Scopes) :
    Follows c n sc (trackTried x acc fs) (parseTried y acc fs sc) := by
  match fs with
  | [] =>
    simp only [trackTried, parseTried]
    exact .pure _
  | f :: rest =>
    simp only [trackTried, parseTried]
    split
    · exact .pure _
    · exact (track_follows f sc .top).bind fun e => trackTried_follows (e :: acc) rest sc
termination_by sizeOf fs
decreasing_by
  all_goals
    simp only [List.cons.sizeOf_spec]
    omega

end

end Forms

/-! ## Expansions -/

/-- With more fuel than there are expansions left, the parser at a desk does not run out of it. -/
theorem trackAt_follows (c : Caller) {n m : Nat} (h : n < m) (f : Form) (sc : Scopes) (p : Position) :
    Follows c n sc (Expr.trackAt c m f p) (Expr.ofFormAt c n f sc p) := by
  induction n generalizing m f sc p with
  | zero =>
    obtain ⟨m, rfl⟩ := Nat.exists_eq_add_one_of_ne_zero (by omega : m ≠ 0)
    have hx : Beside c 0 ⟨Expr.trackAt c m, c⟩
        ⟨fun f _ _ => fail "Macro expansion too deep" f.span, c⟩ :=
      ⟨fun f _ _ => .expanding_none f.span _, rfl, rfl⟩
    exact track_follows hx f sc p
  | succ n ih =>
    obtain ⟨m, rfl⟩ := Nat.exists_eq_add_one_of_ne_zero (by omega : m ≠ 0)
    have hx : Beside c (n + 1) ⟨Expr.trackAt c m, c⟩ ⟨Expr.ofFormAt c n, c⟩ :=
      ⟨fun f sc p => (ih (by omega) f sc p).expanding f.span, rfl, rfl⟩
    exact track_follows hx f sc p

end TwinLisp.Desk
