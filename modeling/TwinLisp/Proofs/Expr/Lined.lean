import TwinLisp.Proofs.Expr.Parsed
import TwinLisp.Proofs.Form.Lined

/-! Lines of programs. Where a fault can be raised, the program has a line if the forms that it is made
of have lines; that holds of macros as well, which get the place of the call.

* `Expr.Lined`: a program that has a line wherever a fault can be raised.
* `Expr.lined_of_ofForm`: the parser makes such programs of forms with lines.
* `Expr.Parsed.lined`: their literals have lines as well. -/

namespace TwinLisp

/-- A program that has a line wherever a fault can be raised. -/
inductive Expr.Lined : Expr → Prop
  | literal {v span} : Lined (.literal v span)
  | quote {v span} : Lined (.quote v span)
  | vector {items span} (h : ∀ e ∈ items, Lined e) : Lined (.vector items span)
  | set {items span} (hs : span.known = true) (h : ∀ e ∈ items, Lined e) : Lined (.set items span)
  | map {items span} (hs : span.known = true) (h : ∀ e ∈ items, Lined e) : Lined (.map items span)
  | localRef {b span} : Lined (.localRef b span)
  | varRef {v span} (hs : span.known = true) : Lined (.varRef v span)
  | theVar {v span} : Lined (.theVar v span)
  | cond {test yes no span} (ht : Lined test) (hy : Lined yes) (hn : ∀ e, no = some e → Lined e) :
    Lined (.cond test yes no span)
  | block {body span} (h : ∀ e ∈ body, Lined e) : Lined (.block body span)
  | letIn {bindings body span} (hb : ∀ b ∈ bindings, Lined b.init) (h : ∀ e ∈ body, Lined e) :
    Lined (.letIn bindings body span)
  | loop {bindings body span} (hb : ∀ b ∈ bindings, Lined b.init) (h : ∀ e ∈ body, Lined e) :
    Lined (.loop bindings body span)
  | recur {args span} (h : ∀ e ∈ args, Lined e) : Lined (.recur args span)
  | fn {f span} (h : ∀ a ∈ f.arities, ∀ e ∈ a.body, Lined e) : Lined (.fn f span)
  | define {v value span} (h : ∀ e, value = some e → Lined e) : Lined (.define v value span)
  | setLocal {b e span} (h : Lined e) : Lined (.setLocal b e span)
  | setVar {v e span} (h : Lined e) : Lined (.setVar v e span)
  | call {callee args span} (hs : span.known = true) (hc : Lined callee) (h : ∀ e ∈ args, Lined e) :
    Lined (.call callee args span)
  | throw {e span} (h : Lined e) : Lined (.throw e span)
  | attempt {body catches finish span} (h : ∀ e ∈ body, Lined e)
    (hc : ∀ c ∈ catches, ∀ e ∈ c.body, Lined e) (hf : ∀ es, finish = some es → ∀ e ∈ es, Lined e) :
    Lined (.attempt body catches finish span)
  | macroCall {v args span} : Lined (.macroCall v args span)

abbrev AllLined (es : List Expr) : Prop := ∀ e ∈ es, e.Lined

/-- A function literal whose bodies have lines. -/
def FnLiteral.Lined (f : FnLiteral Expr) : Prop := ∀ a ∈ f.arities, AllLined a.body

theorem AllLined.nil : AllLined [] := nofun

theorem AllLined.cons {e : Expr} {es : List Expr} (h : e.Lined) (hs : AllLined es) :
    AllLined (e :: es) := List.forall_mem_cons.mpr ⟨h, hs⟩

theorem AllLined.reverse {es : List Expr} (h : AllLined es) : AllLined es.reverse :=
  fun e he => h e (List.mem_reverse.mp he)

/-! ## What actions yield -/

namespace Act

variable {ε α β : Type} {P : α → Prop} {Q : β → Prop}

/-- The values that an action yields have a property. -/
def Gives (P : α → Prop) (a : Act ε α) : Prop := ∀ s x s', a s = .ok x s' → P x

namespace Gives

theorem any (a : Act ε α) : Gives (fun _ => True) a := fun _ _ _ _ => trivial

theorem pure {x : α} (h : P x) : Gives P (Pure.pure x : Act ε α) := fun _ _ _ e => by
  cases e
  exact h

theorem raise (e : ε) : Gives P (Act.raise e : Act ε α) := fun _ _ _ e => nomatch e

theorem bind {a : Act ε α} {k : α → Act ε β} (h : Gives P a) (hk : ∀ x, P x → Gives Q (k x)) :
    Gives Q (a >>= k) := by
  intro s y s' e
  rw [Act.bind_apply] at e
  cases ha : a s with
  | ok x t =>
    rw [ha] at e
    exact hk x (h s x t ha) t y s' e
  | error f t => rw [ha] at e; cases e

/-- An action whose value does not matter, before another. -/
theorem after {a : Act ε α} {k : α → Act ε β} (hk : ∀ x, Gives Q (k x)) : Gives Q (a >>= k) :=
  (any a).bind fun x _ => hk x

theorem bind_pure {a : Act ε α} {f : α → β} (h : Gives P a) (hf : ∀ x, P x → Q (f x)) :
    Gives Q (do return f (← a)) := h.bind fun x hx => .pure (hf x hx)

theorem guard {c : Prop} [Decidable c] {fault : ε} {k : Unit → Act ε α} (h : Gives P (k ())) :
    Gives P (if c then Act.raise fault >>= k else k ()) := by
  split
  · exact .after fun _ => h
  · exact h

end Gives

end Act

namespace Parse

open Act (Gives)

theorem lined_reference {span : Span} (hs : span.known = true) (sc : Scopes) (name : String) :
    Gives Expr.Lined (reference sc name span) := by
  unfold reference
  split
  · exact .pure .localRef
  · refine .after fun o => ?_
    cases o with
    | none => exact .raise _
    | some v => exact .after fun flag => .guard (.pure (.varRef hs))

theorem lined_assignment (sc : Scopes) (name : String) (place : Span) {value : Expr} (h : value.Lined)
    (span : Span) : Gives Expr.Lined (assignment sc name place value span) := by
  unfold assignment
  split
  · exact .pure (.setLocal h)
  · refine .after fun o => ?_
    cases o with
    | none => exact .raise _
    | some v => exact .pure (.setVar h)

theorem lined_theVar (f : Form) (span : Span) : Gives Expr.Lined (theVar f span) := by
  unfold theVar
  refine .after fun name => .after fun o => ?_
  cases o with
  | none => exact .raise _
  | some v => exact .pure .theVar

/-- What macros yield is parsed as a program with lines if it has lines. -/
def Lines (x : Expansion) : Prop := ∀ f sc p, f.Lined → Gives Expr.Lined (x.parse f sc p)

theorem lined_rewrite? {x : Expansion} (hx : Lines x) {form : Form} (hf : form.Lined) (name : String)
    (args : List Form) (sc : Scopes) (p : Position) :
    Gives (fun o => ∀ e, o = some e → e.Lined) (x.rewrite? form name args sc p) := by
  have hsome : ∀ f, f.Lined → Gives (fun o => ∀ e, o = some e → e.Lined)
      (do return some (← x.parse f sc p)) := fun f hf =>
    (hx f sc p hf).bind_pure fun e he e' h => by cases h; exact he
  unfold Expansion.rewrite?
  split
  · exact .pure nofun
  · have hexpand : Gives (fun o => ∀ f, o = some f → f.Lined) (Macro.expandBuiltin form) :=
      fun s o s' h f ho => Macro.lined_of_expandBuiltin hf (ho ▸ h)
    refine hexpand.bind fun o ho => ?_
    cases o with
    | some f => exact hsome f (ho f rfl)
    | none =>
      refine .after fun o => ?_
      cases o with
      | none => exact .pure nofun
      | some v =>
        refine .after fun flag => ?_
        cases flag with
        | false => exact .pure nofun
        | true =>
          refine .after fun m => ?_
          cases m with
          | none => exact .pure fun e h => by cases h; exact .macroCall
          | some u =>
            have huser : Gives Form.Lined
                (Act.mapFault ParseError.ofExpansion (Macro.expandUser x.call u args form.span)) := by
              intro s f s' h
              unfold Act.mapFault at h
              cases hr : Macro.expandUser x.call u args form.span s with
              | ok g t => rw [hr] at h; cases h; exact Macro.lined_of_expandUser hf.known hr
              | error e t => rw [hr] at h; cases e <;> cases h
            exact huser.bind fun f hf => hsome f hf

section Forms

set_option linter.unusedSectionVars false

variable {x : Expansion} (hx : Lines x)

include hx

theorem lined_defineMacro (name : Form) (span : Span) {a : Parse (FnLiteral Expr)}
    (h : Gives FnLiteral.Lined a) :
    Gives Expr.Lined (do
      let v ← definedVar name
      Act.updateStore (Store.setMacro v true)
      return .define v (some (.fn (← a) span)) span) :=
  .after fun _ => .after fun _ => h.bind_pure fun f hf => .define fun e he => by
    cases he
    exact .fn hf

mutual

/-- The parser makes programs with lines of forms with lines. -/
theorem lined_parse (f : Form) (hf : f.Lined) (sc : Scopes) (p : Position) :
    Gives Expr.Lined (f.parse x sc p) := by
  match f with
  | .atom v span =>
    simp only [Form.parse]
    exact .pure .literal
  | .symbol name span =>
    simp only [Form.parse]
    exact lined_reference hf.known sc name
  | .vector items span =>
    simp only [Form.parse]
    exact (lined_parseOnto [] .nil items hf.vectorOf sc p.nonTail).bind_pure fun es he => .vector he
  | .set items span =>
    simp only [Form.parse]
    cases hf with
    | set hs h =>
      exact (lined_parseOnto [] .nil items h sc p.nonTail).bind fun es he =>
        .after fun _ => .pure (.set hs he)
  | .map items span =>
    simp only [Form.parse]
    cases hf with
    | map hs h =>
      exact (lined_parseOnto [] .nil items h sc p.nonTail).bind fun es he =>
        .after fun _ => .pure (.map hs he)
  | .list [] span =>
    simp only [Form.parse]
    exact .pure .literal
  | .list (head :: args) span =>
    have ha := hf.listOf.tail
    unfold Form.parse
    dsimp only
    split
    · match args with
      | [f] => exact .pure .quote
      | [] | _ :: _ :: _ => exact .raise _
    · match args with
      | [test, yes] =>
        refine (lined_parse test ha.head sc p.nonTail).bind fun t ht => ?_
        exact (lined_parse yes ha.tail.head sc p).bind_pure fun y hy => .cond ht hy nofun
      | [test, yes, no] =>
        refine (lined_parse test ha.head sc p.nonTail).bind fun t ht => ?_
        refine (lined_parse yes ha.tail.head sc p).bind fun y hy => ?_
        exact (lined_parse no ha.tail.tail.head sc p).bind_pure fun n hn =>
          .cond ht hy fun e he => by cases he; exact hn
      | [] | [_] | _ :: _ :: _ :: _ :: _ => exact .raise _
    · exact (lined_parseBody [] .nil args ha sc p).bind_pure fun es he => .block he
    · match args with
      | .vector pairs place :: body =>
        refine .guard ?_
        refine (lined_parseBindings [] nofun pairs ha.head.vectorOf ([] :: sc) p.nonTail).bind fun r hb => ?_
        exact (lined_parseBody [] .nil body ha.tail r.2 p).bind_pure fun es he => .letIn hb he
      | [] | .atom .. :: _ | .symbol .. :: _ | .list .. :: _ | .map .. :: _ | .set .. :: _ =>
        exact .raise _
    · match args with
      | .vector pairs place :: body =>
        refine .guard ?_
        refine (lined_parseBindings [] nofun pairs ha.head.vectorOf ([] :: sc) p.nonTail).bind fun r hb => ?_
        exact (lined_parseBody [] .nil body ha.tail r.2 _).bind_pure fun es he => .loop hb he
      | [] | .atom .. :: _ | .symbol .. :: _ | .list .. :: _ | .map .. :: _ | .set .. :: _ =>
        exact .raise _
    · exact .after fun _ => (lined_parseOnto [] .nil args ha sc p.nonTail).bind_pure fun es he => .recur he
    · match args with
      | .symbol name place :: rest =>
        exact (lined_parseFn (some name) span rest ha.tail sc).bind_pure fun f hf => .fn hf
      | [] => exact (lined_parseFn none span [] .nil sc).bind_pure fun f hf => .fn hf
      | .atom v s :: rest | .list v s :: rest | .vector v s :: rest | .map v s :: rest
      | .set v s :: rest => exact (lined_parseFn none span _ ha sc).bind_pure fun f hf => .fn hf
    · match args with
      | [name] => exact (Gives.any (definedVar name)).bind_pure fun v _ => .define nofun
      | [name, value] =>
        exact .after fun v => (lined_parse value ha.tail.head sc p.nonTail).bind_pure fun e he =>
          .define fun e' h => by cases h; exact he
      | [name, doc, value] =>
        exact .after fun v => (lined_parse value ha.tail.tail.head sc p.nonTail).bind_pure fun e he =>
          .define fun e' h => by cases h; exact he
      | [] | _ :: _ :: _ :: _ :: _ => exact .raise _
    · match args with
      | [target, value] =>
        exact .after fun name => (lined_parse value ha.tail.head sc p.nonTail).bind fun e he =>
          lined_assignment sc name target.span he span
      | [] | [_] | _ :: _ :: _ :: _ => exact .raise _
    · match args with
      | [f] => exact lined_theVar f span
      | [] | _ :: _ :: _ => exact .raise _
    · match args with
      | [value] => exact (lined_parse value ha.head sc p.nonTail).bind_pure fun e he => .throw he
      | [] | _ :: _ :: _ => exact .raise _
    · refine (lined_parseClauses [] nofun none nofun args ha sc).bind fun r hr => ?_
      exact (lined_parseTried [] .nil args ha sc).bind_pure fun es he => .attempt he hr.1 hr.2
    · split
      · rename_i name text place first rest
        exact lined_defineMacro hx name span (lined_parseFn name.symbol? span (first :: rest) ha.tail.tail sc)
      · rename_i name first rest _
        exact lined_defineMacro hx name span (lined_parseFn name.symbol? span (first :: rest) ha.tail sc)
      · exact .raise _
    · have hcall : Gives Expr.Lined (do
          let callee ← head.parse x sc p.nonTail
          return .call callee (← parseOnto x [] args sc p.nonTail) span) :=
        (lined_parse head hf.listOf.head sc p.nonTail).bind fun c hc =>
          (lined_parseOnto [] .nil args ha sc p.nonTail).bind_pure fun es he => .call hf.known hc he
      split
      · next name _ =>
        refine (lined_rewrite? hx hf name args sc p).bind fun o ho => ?_
        cases o with
        | some e => exact .pure (ho e rfl)
        | none => exact hcall
      · exact hcall
termination_by sizeOf f
decreasing_by
  all_goals
    subst_vars
    simp only [Form.vector.sizeOf_spec, Form.set.sizeOf_spec, Form.map.sizeOf_spec, Form.list.sizeOf_spec,
      List.cons.sizeOf_spec]
    omega

theorem lined_parseOnto (acc : List Expr) (ha : AllLined acc) (fs : List Form) (hfs : Form.AllLined fs)
    (sc : Scopes) (p : Position) : Gives AllLined (parseOnto x acc fs sc p) := by
  match fs with
  | [] =>
    simp only [parseOnto]
    exact .pure ha.reverse
  | f :: rest =>
    simp only [parseOnto]
    exact (lined_parse f hfs.head sc p).bind fun e he =>
      lined_parseOnto (e :: acc) (.cons he ha) rest hfs.tail sc p
termination_by sizeOf fs
decreasing_by
  all_goals
    simp only [List.cons.sizeOf_spec]
    omega

theorem lined_parseBody (acc : List Expr) (ha : AllLined acc) (fs : List Form) (hfs : Form.AllLined fs)
    (sc : Scopes) (p : Position) : Gives AllLined (parseBody x acc fs sc p) := by
  match fs with
  | [] =>
    simp only [parseBody]
    exact .pure ha.reverse
  | [f] =>
    simp only [parseBody]
    exact (lined_parse f hfs.head sc p).bind_pure fun e he => AllLined.reverse (.cons he ha)
  | f :: f' :: rest =>
    simp only [parseBody]
    exact (lined_parse f hfs.head sc p.nonTail).bind fun e he =>
      lined_parseBody (e :: acc) (.cons he ha) (f' :: rest) hfs.tail sc p
termination_by sizeOf fs
decreasing_by
  all_goals
    simp only [List.cons.sizeOf_spec]
    omega

theorem lined_parseBindings (acc : List (Bound Expr)) (ha : ∀ b ∈ acc, b.init.Lined) (fs : List Form)
    (hfs : Form.AllLined fs) (sc : Scopes) (p : Position) :
    Gives (fun r => ∀ b ∈ r.1, b.init.Lined) (parseBindings x acc fs sc p) := by
  match fs with
  | [] | [_] =>
    simp only [parseBindings]
    exact .pure fun b hb => ha b (List.mem_reverse.mp hb)
  | name :: init :: rest =>
    simp only [parseBindings]
    exact .after fun n => (lined_parse init hfs.tail.head sc p).bind fun e he =>
      lined_parseBindings (⟨n, e⟩ :: acc) (List.forall_mem_cons.mpr ⟨he, ha⟩) rest hfs.tail.tail _ p
termination_by sizeOf fs
decreasing_by
  all_goals
    simp only [List.cons.sizeOf_spec]
    omega

theorem lined_parseFn (name : Option String) (span : Span) (fs : List Form) (hfs : Form.AllLined fs)
    (sc : Scopes) : Gives FnLiteral.Lined (parseFn x name span fs sc) := by
  match fs with
  | .vector params place :: body =>
    simp only [parseFn]
    exact .after fun r => (lined_parseBody [] .nil body hfs.tail _ _).bind_pure fun es he a hm => by
      rw [List.mem_singleton.mp hm]
      exact he
  | .list items place :: more =>
    unfold parseFn
    dsimp only
    split
    · exact (Gives.raise (P := fun _ => False) _).bind fun _ h => h.elim
    · match items with
      | [] => exact .raise _
      | params :: body =>
        refine .after fun r => (lined_parseBody [] .nil body hfs.head.listOf.tail _ _).bind fun es he => ?_
        exact (lined_parseArities name span _ (List.forall_mem_singleton.mpr he) more hfs.tail sc).bind_pure
          fun as h => h
  | [] | .atom .. :: _ | .symbol .. :: _ | .map .. :: _ | .set .. :: _ =>
    simp only [parseFn]
    exact .raise _
termination_by sizeOf fs
decreasing_by
  all_goals
    subst_vars
    simp only [Form.list.sizeOf_spec, List.cons.sizeOf_spec]
    omega

theorem lined_parseArities (name : Option String) (span : Span) (acc : List (Arity Expr))
    (ha : ∀ a ∈ acc, AllLined a.body) (fs : List Form) (hfs : Form.AllLined fs) (sc : Scopes) :
    Gives (fun as => ∀ a ∈ as, AllLined a.body) (parseArities x name span acc fs sc) := by
  match fs with
  | .list (params :: body) place :: more =>
    simp only [parseArities]
    refine .after fun r => (lined_parseBody [] .nil body hfs.head.listOf.tail _ _).bind fun es he => ?_
    exact .after fun _ => lined_parseArities name span _ (List.forall_mem_cons.mpr ⟨he, ha⟩) more hfs.tail sc
  | [] | .atom .. :: _ | .symbol .. :: _ | .vector .. :: _ | .map .. :: _ | .set .. :: _
  | .list [] _ :: _ =>
    simp only [parseArities]
    exact .pure fun a hm => ha a (List.mem_reverse.mp hm)
termination_by sizeOf fs
decreasing_by
  all_goals
    simp only [Form.list.sizeOf_spec, List.cons.sizeOf_spec]
    omega

theorem lined_parseClauses (acc : List (CatchClause Expr)) (ha : ∀ c ∈ acc, AllLined c.body)
    (finish : Option (List Expr)) (hf : ∀ es, finish = some es → AllLined es) (fs : List Form)
    (hfs : Form.AllLined fs) (sc : Scopes) :
    Gives (fun r => (∀ c ∈ r.1, AllLined c.body) ∧ ∀ es, r.2 = some es → AllLined es)
      (parseClauses x acc finish fs sc) := by
  unfold parseClauses
  split
  · exact .pure ⟨fun c hm => ha c (List.mem_reverse.mp hm), hf⟩
  · rename_i place items span rest
    have hi := hfs.head.listOf.tail
    refine .guard ?_
    match hi' : items with
    | [] | [_] => exact .raise _
    | cls :: name :: body =>
      refine .after fun c => .after fun n => ?_
      refine (lined_parseOnto [] .nil body hi.tail.tail _ .top).bind fun es he => ?_
      exact lined_parseClauses (⟨c, n, es⟩ :: acc) (List.forall_mem_cons.mpr ⟨he, ha⟩) finish hf rest
        hfs.tail sc
  · rename_i place body span rest
    refine .guard ?_
    refine (lined_parseOnto [] .nil body hfs.head.listOf.tail sc .top).bind fun es he => ?_
    exact lined_parseClauses acc ha (some es) (fun b h => by cases h; exact he) rest hfs.tail sc
  · rename_i f rest _ _
    exact .guard (lined_parseClauses acc ha finish hf rest hfs.tail sc)
termination_by sizeOf fs
decreasing_by
  all_goals
    subst_vars
    simp only [Form.list.sizeOf_spec, List.cons.sizeOf_spec]
    omega

theorem lined_parseTried (acc : List Expr) (ha : AllLined acc) (fs : List Form) (hfs : Form.AllLined fs)
    (sc : Scopes) : Gives AllLined (parseTried x acc fs sc) := by
  match fs with
  | [] =>
    simp only [parseTried]
    exact .pure ha.reverse
  | f :: rest =>
    simp only [parseTried]
    split
    · exact .pure ha.reverse
    · exact (lined_parse f hfs.head sc .top).bind fun e he =>
        lined_parseTried (e :: acc) (.cons he ha) rest hfs.tail sc
termination_by sizeOf fs
decreasing_by
  all_goals
    simp only [List.cons.sizeOf_spec]
    omega

end

end Forms

theorem lined_ofFormAt (call : Value → List Value → Run Value) (n : Nat) {f : Form} (hf : f.Lined)
    (sc : Scopes) (p : Position) : Gives Expr.Lined (Expr.ofFormAt call n f sc p) := by
  induction n generalizing f sc p with
  | zero => exact lined_parse (fun _ _ _ _ => .raise _) f hf sc p
  | succ n ih => exact lined_parse (fun _ sc p hf => ih hf sc p) f hf sc p

end Parse

namespace Expr

theorem lined_of_ofForm {call : Value → List Value → Run Value} {f : Form} (hf : f.Lined)
    {s s' : State} {e : Expr} (h : ofForm call f s = .ok e s') : e.Lined :=
  Parse.lined_ofFormAt call maxExpansions hf [] .top s e s' h

end Expr

/-! ## Literals -/

/-- The rules of the parser for programs with lines. -/
def Expr.Rules.lined : Expr.Rules := ⟨fun sc f => f.Parsed .bare sc ∧ f.Lined, True⟩

mutual

theorem Expr.Parsed.lined (e : Expr) {sc : Scopes} {p : Position} (h : e.Parsed .bare sc p)
    (hl : e.Lined) : e.Parsed .lined sc p := by
  cases h with
  | literal h => exact .literal h
  | quote h => exact .quote h
  | vector h =>
    cases hl with
    | vector hl => exact .vector (allParsed_lined _ h hl)
  | set h =>
    cases hl with
    | set _ hl => exact .set (allParsed_lined _ h hl)
  | map he h =>
    cases hl with
    | map _ hl => exact .map he (allParsed_lined _ h hl)
  | localRef h => exact .localRef h
  | varRef => exact .varRef
  | theVar => exact .theVar
  | cond ht hy hn =>
    cases hl with
    | cond hlt hly hln => exact .cond (ht.lined _ hlt) (hy.lined _ hly) (optionParsed_lined _ hn hln)
  | block h =>
    cases hl with
    | block hl => exact .block (bodyParsed_lined _ h hl)
  | letIn hb h =>
    cases hl with
    | letIn hlb hl => exact .letIn (bindingsParsed_lined _ hb hlb) (bodyParsed_lined _ h hl)
  | loop hb h =>
    cases hl with
    | loop hlb hl => exact .loop (bindingsParsed_lined _ hb hlb) (bodyParsed_lined _ h hl)
  | recur ht ha h =>
    cases hl with
    | recur hl => exact .recur ht ha (allParsed_lined _ h hl)
  | fn hr h =>
    cases hl with
    | fn hl => exact .fn ⟨⟨hr, h⟩, hl⟩ (aritiesParsed_lined _ h hl)
  | define h =>
    cases hl with
    | define hl => exact .define (optionParsed_lined _ h hl)
  | setLocal hb h =>
    cases hl with
    | setLocal hl => exact .setLocal hb (h.lined _ hl)
  | setVar h =>
    cases hl with
    | setVar hl => exact .setVar (h.lined _ hl)
  | call hc h =>
    cases hl with
    | call _ hlc hl => exact .call (hc.lined _ hlc) (allParsed_lined _ h hl)
  | throw h =>
    cases hl with
    | throw hl => exact .throw (h.lined _ hl)
  | attempt h hc hf =>
    cases hl with
    | attempt hl hlc hlf =>
      exact .attempt (allParsed_lined _ h hl) (catchesParsed_lined _ hc hlc) (finishParsed_lined _ hf hlf)
  | macroCall hm h => exact .macroCall hm h

theorem allParsed_lined (es : List Expr) {sc : Scopes} {p : Position} (h : AllParsed .bare sc p es)
    (hl : AllLined es) : AllParsed .lined sc p es := by
  cases es with
  | nil => exact .nil
  | cons e rest =>
    exact .cons ((h e List.mem_cons_self).lined e (hl e List.mem_cons_self))
      (allParsed_lined rest (fun x hx => h x (List.mem_cons_of_mem e hx)) fun x hx =>
        hl x (List.mem_cons_of_mem e hx))

theorem optionParsed_lined (o : Option Expr) {sc : Scopes} {p : Position}
    (h : ∀ e, o = some e → e.Parsed .bare sc p) (hl : ∀ e, o = some e → e.Lined) :
    ∀ e, o = some e → e.Parsed .lined sc p := by
  cases o with
  | none => exact nofun
  | some e =>
    intro e' he
    cases he
    exact (h e rfl).lined e (hl e rfl)

theorem bodyParsed_lined (es : List Expr) {sc : Scopes} {p : Position} (h : BodyParsed .bare sc p es)
    (hl : AllLined es) : BodyParsed .lined sc p es := by
  match es, h with
  | [], .nil => exact .nil
  | [e], .last h => exact .last (h.lined e (hl e List.mem_cons_self))
  | e :: e' :: rest, .cons h hr =>
    exact .cons (h.lined e (hl e List.mem_cons_self))
      (bodyParsed_lined (e' :: rest) hr fun x hx => hl x (List.mem_cons_of_mem e hx))

theorem bindingsParsed_lined (bs : List (Bound Expr)) {sc inner : Scopes} {p : Position}
    (h : BindingsParsed .bare sc p bs inner) (hl : ∀ b ∈ bs, b.init.Lined) :
    BindingsParsed .lined sc p bs inner := by
  match bs, h with
  | [], .nil => exact .nil
  | ⟨name, init⟩ :: rest, .cons h hr =>
    exact .cons (h.lined init (hl ⟨name, init⟩ List.mem_cons_self))
      (bindingsParsed_lined rest hr fun b hb => hl b (List.mem_cons_of_mem _ hb))

theorem aritiesParsed_lined (as : List (Arity Expr)) {sc : Scopes} {name : String}
    (h : ∀ params variadic body, Arity.mk params variadic body ∈ as →
      BodyParsed .bare (sc.enterCall name params) (.body params.length) body)
    (hl : ∀ a ∈ as, AllLined a.body) :
    ∀ params variadic body, Arity.mk params variadic body ∈ as →
      BodyParsed .lined (sc.enterCall name params) (.body params.length) body := by
  cases as with
  | nil => exact fun _ _ _ hm => absurd hm List.not_mem_nil
  | cons a rest =>
    obtain ⟨ps, v, b⟩ := a
    have hb := bodyParsed_lined b (h ps v b List.mem_cons_self) (hl ⟨ps, v, b⟩ List.mem_cons_self)
    intro params variadic body hm
    rcases List.mem_cons.mp hm with e | hm
    · cases e
      exact hb
    · exact aritiesParsed_lined rest (fun ps v b hm => h ps v b (List.mem_cons_of_mem _ hm))
        (fun a ha => hl a (List.mem_cons_of_mem _ ha)) params variadic body hm

theorem catchesParsed_lined (cs : List (CatchClause Expr)) {sc : Scopes}
    (h : ∀ cls name body, CatchClause.mk cls name body ∈ cs → AllParsed .bare ([name] :: sc) .top body)
    (hl : ∀ c ∈ cs, AllLined c.body) :
    ∀ cls name body, CatchClause.mk cls name body ∈ cs → AllParsed .lined ([name] :: sc) .top body := by
  cases cs with
  | nil => exact fun _ _ _ hm => absurd hm List.not_mem_nil
  | cons c rest =>
    obtain ⟨k, n, b⟩ := c
    have hb := allParsed_lined b (h k n b List.mem_cons_self) (hl ⟨k, n, b⟩ List.mem_cons_self)
    intro cls name body hm
    rcases List.mem_cons.mp hm with e | hm
    · cases e
      exact hb
    · exact catchesParsed_lined rest (fun k n b hm => h k n b (List.mem_cons_of_mem _ hm))
        (fun c hc => hl c (List.mem_cons_of_mem _ hc)) cls name body hm

theorem finishParsed_lined (o : Option (List Expr)) {sc : Scopes}
    (h : ∀ body, o = some body → AllParsed .bare sc .top body)
    (hl : ∀ body, o = some body → AllLined body) :
    ∀ body, o = some body → AllParsed .lined sc .top body := by
  cases o with
  | none => exact nofun
  | some body =>
    intro body' he
    cases he
    exact allParsed_lined body (h body rfl) (hl body rfl)

end

end TwinLisp
