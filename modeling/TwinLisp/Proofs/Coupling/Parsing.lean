import TwinLisp.Proofs.Coupling.Natives
import TwinLisp.Proofs.Macro.Builtin

/-! Two parsers that are coupled. Parsing depends on namespaces and Vars alone, and on the macros it
calls; if calls follow calls, then the second parser yields the same expression, and that is one of
the parser's making. The first may parse a form inside further scopes, if it does not mention their
names; then its local names are at other places.

* `Coupling.reference_follows` and its kin: the rules of the special forms.
* `Coupling.parse_follows`: a form where it stands, given a parser for what macros yield.
* `Coupling.ofFormAt_follows`: what macros yield, below a number of further expansions.
* `Coupling.ofForm_follows`: a whole form.
* `Coupling.alone`, `Expr.parsed_of_ofFormAt`: the parser by itself makes programs as `Expr.Parsed` says,
  whatever the macros it calls may do. -/

namespace TwinLisp

namespace Coupling

open Parse

variable {C : Coupling} {short : Nat → Prop} {avoid : String → Prop} {g : Binding → Binding}
  {deep sc : Scopes}

/-- The same expression, made by the parser. -/
def parsed (sc : Scopes) (p : Position) (_ : C.World) (e e' : Expr) : Prop :=
  e' = e ∧ e.Parsed .bare sc p

/-- The same thing with a property. -/
def with_ {α : Type} (P : α → Prop) (_ : C.World) (x y : α) : Prop := y = x ∧ P x

/-- The first is what becomes of the second, which has a property. -/
def from_ {α : Type} (r : α → α) (P : α → Prop) (_ : C.World) (x y : α) : Prop := x = r y ∧ P y

/-- The same expression, made by the parser, with its local names at other places. -/
def placed (g : Binding → Binding) (sc : Scopes) (p : Position) : C.World → Expr → Expr → Prop :=
  from_ (Expr.relocate g) (Expr.Parsed .bare sc p)

theorem raise_follows {α : Type} {V : C.World → α → α → Prop} {w : C.World} {f : ParseFault}
    (h : f.Plain) (span : Span) :
    C.Follows short V C.parseFault w (Act.raise ⟨f, span⟩) fun _ => Act.raise ⟨f, span⟩ :=
  .raise ⟨h, rfl, fun _ => rfl⟩

theorem fail_follows {α : Type} {V : C.World → α → α → Prop} {w : C.World} {s : String}
    (hl : 4 ≤ s.toList.length) (hs : RuntimeFault.stem s ∉ RuntimeFault.corruptStems)
    (span : Span) :
    C.Follows short V C.parseFault w (Parse.fail s span) fun _ => Parse.fail s span :=
  raise_follows (ParseFault.plain_general hl hs) span

theorem failWith_follows {α : Type} {V : C.World → α → α → Prop} {w : C.World} {s : String}
    (t : String) (hl : 4 ≤ s.toList.length)
    (hs : RuntimeFault.stem s ∉ RuntimeFault.corruptStems) (span : Span) :
    C.Follows short V C.parseFault w (Parse.fail (s ++ t) span) fun _ => Parse.fail (s ++ t) span :=
  raise_follows (ParseFault.plain_general_append t hl hs) span

theorem raise_bind_follows {α β γ : Type} {V : C.World → α → β → Prop} {w : C.World}
    {f : ParseFault} (h : f.Plain) (span : Span) (k : γ → Parse α) (k' : Nat → γ → Parse β) :
    C.Follows short V C.parseFault w (Act.raise ⟨f, span⟩ >>= k) fun m =>
      Act.raise ⟨f, span⟩ >>= k' m := by
  intro s t hs
  exact .raised (C.refl w) ⟨h, rfl, fun _ => rfl⟩ hs (.of_eq fun _ _ => rfl)

theorem guard_follows {α β : Type} {V : C.World → α → β → Prop} {w : C.World} {c : Prop}
    [Decidable c] {s : String} {span : Span} {k : Unit → Parse α} {k' : Nat → Unit → Parse β}
    (hp : (ParseFault.general s).Plain)
    (hk : ¬ c → C.Follows short V C.parseFault w (k ()) fun m => k' m ()) :
    C.Follows short V C.parseFault w (if c then Parse.fail s span >>= k else k ()) fun m =>
      if c then Parse.fail s span >>= k' m else k' m () := by
  by_cases hc : c
  · simp only [if_pos hc]
    exact raise_bind_follows hp span k k'
  · simp only [if_neg hc]
    exact hk hc

/-! ## Names -/

theorem symbolName_follows (w : C.World) (expected : String) (f : Form) :
    C.Follows short (C.with_ fun name => f.symbol? = some name) C.parseFault w
      (symbolName expected f) fun _ => symbolName expected f := by
  unfold symbolName
  cases f.symbol? with
  | some name => exact .pure ⟨rfl, rfl⟩
  | none => exact raise_follows (ParseFault.plain_unexpectedForm _ _) _

theorem ofExcept_follows {α : Type} {r : Except ParseError α} (w : C.World)
    (h : ∀ e, r = .error e → e.cause.Plain) :
    C.Follows short (C.with_ fun x => r = .ok x) C.parseFault w (Act.ofExcept r) fun _ =>
      Act.ofExcept r := by
  cases r with
  | ok x => exact .pure ⟨rfl, rfl⟩
  | error e => exact raise_follows (h e rfl) e.span

theorem plain_of_bindingName {f : Form} {e : ParseError} (h : bindingName f = .error e) :
    e.cause.Plain := by
  unfold bindingName at h
  split at h
  · split at h
    · cases h
    · cases h
      exact ParseFault.plain_general_append _ (by decide) (by decide)
  · cases h
    exact ParseFault.plain_general_append _ (by decide) (by decide)

theorem plain_of_parameters {span : Span} {fs : List Form} {e : ParseError}
    (h : parameters span fs = .error e) : e.cause.Plain := by
  induction fs generalizing e with
  | nil => cases h
  | cons f rest ih =>
    unfold parameters at h
    split at h
    · split at h
      · rename_i last
        cases hb : bindingName last with
        | ok name => rw [hb] at h; cases h
        | error e' => rw [hb] at h; cases h; exact plain_of_bindingName hb
      · cases h
        exact ParseFault.plain_general (by decide) (by decide)
    · cases hb : bindingName f with
      | error e' => rw [hb] at h; cases h; exact plain_of_bindingName hb
      | ok name =>
        rw [hb] at h
        cases hp : parameters span rest with
        | error e' => rw [hp] at h; cases h; exact ih hp
        | ok p => rw [hp] at h; cases h

theorem ne_nil_of_parameters {span : Span} {fs : List Form} {r : List String × Bool}
    (h : parameters span fs = .ok r) (hv : r.2 = true) : r.1 ≠ [] := by
  cases fs with
  | nil =>
    cases h
    cases hv
  | cons f rest =>
    unfold parameters at h
    split at h
    · split at h
      · rename_i last
        cases hb : bindingName last with
        | ok name =>
          rw [hb] at h
          cases h
          exact List.cons_ne_nil _ _
        | error e =>
          rw [hb] at h
          cases h
      · cases h
    · cases hb : bindingName f with
      | error e =>
        rw [hb] at h
        cases h
      | ok name =>
        rw [hb] at h
        cases hp : parameters span rest with
        | error e =>
          rw [hp] at h
          cases h
        | ok r =>
          rw [hp] at h
          cases h
          exact List.cons_ne_nil _ _

theorem ne_nil_of_parametersOf {f : Form} {r : List String × Bool}
    (h : parametersOf f = .ok r) (hv : r.2 = true) : r.1 ≠ [] := by
  unfold parametersOf at h
  split at h
  · exact ne_nil_of_parameters h hv
  · cases h

theorem plain_of_parametersOf {f : Form} {e : ParseError} (h : parametersOf f = .error e) :
    e.cause.Plain := by
  unfold parametersOf at h
  split at h
  · exact plain_of_parameters h
  · cases h
    exact ParseFault.plain_unexpectedForm _ _

/-! ## The rules of the special forms -/

theorem checkOverload_follows (w : C.World) (span : Span) (earlier : List (Arity Expr))
    (a : Arity Expr) :
    C.Follows short C.same C.parseFault w (checkOverload span earlier a) fun _ =>
      checkOverload span earlier a := by
  unfold checkOverload
  dsimp only
  refine guard_follows (ParseFault.plain_general (by decide) (by decide)) fun _ => ?_
  split
  · exact fail_follows (by decide) (by decide) span
  · exact .pure rfl

theorem distinct_follows (w : C.World) (es : List Expr) (span : Span) :
    C.Follows short C.same C.parseFault w (distinct es span) fun _ => distinct es span := by
  unfold distinct
  split
  · exact failWith_follows _ (by decide) (by decide) span
  · exact .pure rfl

theorem checkRecur_follows (w : C.World) (p : Position) (count : Nat) (span : Span) :
    C.Follows short (C.with_ fun _ => p.tail = true ∧ p.recurArity = some count) C.parseFault w
      (checkRecur p count span) fun _ => checkRecur p count span := by
  unfold checkRecur
  split
  · exact fail_follows (by decide) (by decide) span
  · rename_i expected he
    split
    · exact fail_follows (by decide) (by decide) span
    · split
      · rw [String.append_assoc, String.append_assoc]
        exact failWith_follows _ (by decide) (by decide) span
      · rename_i ht hc
        exact .pure ⟨rfl, by simpa using ht, by rw [he, not_not.mp hc]⟩

theorem catchClass_follows (w : C.World) (f : Form) :
    C.Follows short C.same C.parseFault w (catchClass f) fun _ => catchClass f := by
  refine (symbolName_follows w _ f).bind fun w' x y _ e => ?_
  cases e.1
  split
  · exact .pure rfl
  · exact .pure rfl
  · exact .pure rfl
  · exact .pure rfl
  · exact failWith_follows _ (by decide) (by decide) _

section Shared

variable (H : C.Shared)

include H

theorem definedVar_follows (w : C.World) (f : Form) :
    C.Follows short C.same C.parseFault w (definedVar f) fun _ => definedVar f := by
  refine (symbolName_follows w _ f).bind fun w₁ name name' _ e => ?_
  cases e.1
  split
  · exact H.intern w₁ _
  · refine (H.currentNs w₁).bind fun w₂ c c' _ e => ?_
    cases e
    dsimp only
    refine guard_follows (ParseFault.plain_general_append _ (by decide) (by decide)) fun _ => ?_
    exact H.intern w₂ _

theorem theVar_follows (w : C.World) {p : Position} (f : Form) (span : Span) :
    C.Follows short (C.placed g sc p) C.parseFault w (Parse.theVar f span) fun _ =>
      Parse.theVar f span := by
  refine (symbolName_follows w _ f).bind fun w₁ name name' _ e => ?_
  cases e.1
  refine (H.resolve? w₁ name).bind fun w₂ o o' _ e => ?_
  cases e
  cases o with
  | none =>
    simp only [String.append_assoc]
    exact failWith_follows _ (by decide) (by decide) span
  | some v => exact .pure ⟨rfl, .theVar⟩

omit H in
theorem name_of_find? {name : String} {sc : Scopes} {b : Binding} (h : sc.find? name = some b) :
    b.name = name := by
  induction sc with
  | nil => cases h
  | cons names outer ih =>
    unfold Scopes.find? at h
    split at h
    · cases h
      rfl
    · exact ih h

omit H in
theorem find?_of_local? {name : String} {sc : Scopes} {b : Binding}
    (h : Parse.local? name sc = some b) : sc.find? b.name = some b := by
  unfold Parse.local? at h
  split at h
  · rwa [name_of_find? h]
  · cases h

theorem reference_follows (w : C.World) (hc : Scopes.Covers avoid g deep sc) (p : Position)
    {name : String} (hn : ¬ avoid name) (span : Span) :
    C.Follows short (C.placed g sc p) C.parseFault w (reference deep name span) fun _ =>
      reference sc name span := by
  unfold reference
  rw [hc.local? hn]
  cases hl : Parse.local? name sc with
  | some b => exact .pure ⟨rfl, .localRef (find?_of_local? hl)⟩
  | none =>
    refine (H.resolve? w name).bind fun w₁ o o' _ e => ?_
    cases e
    cases o with
    | none => exact raise_follows (ParseFault.plain_unresolvedSymbol _) _
    | some v =>
      refine (H.isMacro w₁ v).bind fun w₂ b b' _ e => ?_
      cases e
      dsimp only
      refine guard_follows (ParseFault.plain_general_append _ (by decide) (by decide)) fun _ => ?_
      exact .pure ⟨rfl, .varRef⟩

theorem assignment_follows (w : C.World) (hc : Scopes.Covers avoid g deep sc) (p : Position)
    {name : String} (hn : ¬ avoid name) (place : Span) {value : Expr}
    (hv : value.Parsed .bare sc p.nonTail) (span : Span) :
    C.Follows short (C.placed g sc p) C.parseFault w
      (assignment deep name place (value.relocate g) span) fun _ =>
        assignment sc name place value span := by
  unfold assignment
  rw [hc.local? hn]
  cases hl : Parse.local? name sc with
  | some b => exact .pure ⟨rfl, .setLocal (find?_of_local? hl) hv⟩
  | none =>
    refine (H.resolve? w name).bind fun w₁ o o' _ e => ?_
    cases e
    cases o with
    | none => exact raise_follows (ParseFault.plain_unresolvedSymbol _) _
    | some v => exact .pure ⟨rfl, .setVar hv⟩

end Shared

/-! ## Macro calls -/

/-- The code that calls yield avoids certain names. -/
def Heedful (avoid : String → Prop) (c : Caller) : Prop :=
  ∀ {u args s v s'}, c u args s = .ok v s' → ∀ {span f}, Form.ofValue span v = .ok f → f.Avoids avoid

theorem heedful_none (c : Caller) : Heedful (fun _ => False) c := fun _ _ _ _ _ _ => id

theorem Heedful.expandUser {c : Caller} (h : Heedful avoid c) {u : Value} {args : List Form}
    {span : Span} {f : Form} {s s' : State} (hr : Macro.expandUser c u args span s = .ok f s') :
    f.Avoids avoid := by
  unfold Macro.expandUser at hr
  rw [Act.bind_apply] at hr
  unfold Act.within Act.mapFault at hr
  cases hv : c u (Form.toValues args) s with
  | ok v s₁ =>
    rw [hv] at hr
    dsimp only at hr
    cases hf : Form.ofValue span v with
    | ok g =>
      rw [hf] at hr
      cases hr
      exact h hv hf
    | error e =>
      rw [hf] at hr
      cases hr
  | error e s₁ =>
    rw [hv] at hr
    cases e <;> cases hr

/-- The surroundings of two parsers: calls follow calls, the code that calls of the first yield avoids
certain names, and parsers for what macros yield follow each other. -/
structure Expansions (C : Coupling) (short : Nat → Prop) (avoid : String → Prop) (x : Expansion)
    (y : Nat → Expansion) : Prop where
  parse : ∀ w f {g deep sc} p, Macro.Written avoid f → Scopes.Covers avoid g deep sc →
    C.Follows short (C.placed g sc p) C.parseFault w (x.parse f deep p) fun m => (y m).parse f sc p
  call : C.Calls short x.call fun m => (y m).call
  heedful : Heedful avoid x.call

/-- The same expression, made by the parser, with its local names at other places, if any. -/
def placed? (g : Binding → Binding) (sc : Scopes) (p : Position) : C.World → Option Expr →
    Option Expr → Prop :=
  from_ (relocateOption g) fun e => ∀ x, e = some x → x.Parsed .bare sc p

variable {x : Expansion} {y : Nat → Expansion}

/-- A macro that is a function, if the code that calls of the first yield avoids certain names. -/
theorem expandFitting_follows {c : Caller} {d : Nat → Caller} (hc : C.Calls short c d)
    (hh : Heedful avoid c) {w : C.World} {u v : Value} (h : C.value w u v) {args : List Form}
    (ha : Form.AllProper args) (span : Span) :
    C.Follows short (C.with_ (Form.Fit avoid)) C.fault w (Macro.expandUser c u args span) fun m =>
      Macro.expandUser (d m) v args span := by
  intro s t hst
  have hm := expandUser_follows hc h ha span s t hst
  cases hr : Macro.expandUser c u args span s with
  | ok f s' =>
    rw [hr] at hm
    cases hm with
    | ok hw hx hs hc => exact .ok hw ⟨hx.1, hx.2, hh.expandUser hr⟩ hs hc
  | error e s' =>
    rw [hr] at hm
    cases hm with
    | raised hw he hs hc => exact .raised hw he hs hc
    | exhausted hc => exact .exhausted hc

theorem rewrite?_follows (H : C.Shared) (hw : Macro.Spares avoid)
    (hx : C.Expansions short avoid x y) (w : C.World) {name : String} {place : Span}
    {args : List Form} {span : Span} (hf : (Form.list (.symbol name place :: args) span).Fit avoid)
    (hc : Scopes.Covers avoid g deep sc) (p : Position) :
    C.Follows short (C.placed? g sc p) C.parseFault w
      (x.rewrite? (.list (.symbol name place :: args) span) name args deep p) fun m =>
        (y m).rewrite? (.list (.symbol name place :: args) span) name args sc p := by
  have hsome : ∀ w' f, Macro.Written avoid f → C.Follows short (C.placed? g sc p) C.parseFault w'
      (do return some (← x.parse f deep p)) fun m => do return some (← (y m).parse f sc p) :=
    fun w' f hf => (hx.parse w' f p hf hc).bind_pure fun _ e e' _ he =>
      ⟨by rw [he.1, relocateOption], fun z hz => by cases hz; exact he.2⟩
  have hparts := Form.fit_list.mp hf
  unfold Expansion.rewrite?
  rw [hc.find name (Form.fit_symbol.mp hparts.head), Option.isSome_map]
  split
  · exact .pure ⟨rfl, fun _ h => by cases h⟩
  · refine ((expandBuiltin_follows H hw w hf).imp (fun _ _ _ _ h => h)
      fun _ _ _ _ h => parseFault_of_sameFault h).bind fun w₁ o o' _ ho => ?_
    obtain ⟨rfl, ho⟩ := ho
    cases o' with
    | some f => exact hsome w₁ f (ho f rfl)
    | none =>
      refine (H.resolve? w₁ name).bind fun w₂ v v' _ e => ?_
      cases e
      cases v with
      | none => exact .pure ⟨rfl, fun _ h => by cases h⟩
      | some v =>
        refine (H.isMacro w₂ v).bind fun w₃ b b' _ e => ?_
        cases e
        cases b with
        | false => exact .pure ⟨rfl, fun _ h => by cases h⟩
        | true =>
          refine (H.varValue? w₃ v).bind fun w₄ m m' _ hm => ?_
          rcases hm with ⟨rfl, rfl⟩ | ⟨u, u', rfl, rfl, hu⟩
          · exact .pure ⟨rfl, fun z hz => by
              cases hz; exact .macroCall trivial hparts.tail.proper⟩
          · have he : C.Follows short (C.with_ (Form.Fit avoid)) C.parseFault w₄
                (Act.mapFault ParseError.ofExpansion (Macro.expandUser x.call u args span))
                fun m => Act.mapFault ParseError.ofExpansion
                  (Macro.expandUser (y m).call u' args span) :=
              (expandFitting_follows hx.call hx.heedful hu hparts.tail.proper span).mapFault
                fun w' e e' he => ⟨ParseFault.plain_ofExpansion e, by
                  rw [ParseError.ofExpansion, ParseError.ofExpansion, he.message], fun hx => C.exact_of_near hx he.2.2⟩
            refine he.bind fun w₅ f f' _ hf => ?_
            obtain ⟨rfl, hf⟩ := hf
            exact hsome w₅ f' (.plain hf)

/-! ## Forms -/

/-- Arities of a function, each with a body of the parser. -/
def AritiesParsed (sc : Scopes) (name : Option String) (as : List (Arity Expr)) : Prop :=
  ∀ params variadic body, Arity.mk params variadic body ∈ as →
    BodyParsed .bare (sc.enterCall (name.getD "") params) (.body params.length) body ∧
      (variadic = true → params ≠ [])

theorem AritiesParsed.cons {sc : Scopes} {name : Option String} {params : List String}
    {variadic : Bool} {body : List Expr} {as : List (Arity Expr)}
    (h : BodyParsed .bare (sc.enterCall (name.getD "") params) (.body params.length) body)
    (hv : variadic = true → params ≠ []) (hs : AritiesParsed sc name as) :
    AritiesParsed sc name (⟨params, variadic, body⟩ :: as) := by
  intro ps v b hm
  rcases List.mem_cons.mp hm with e | hm
  · cases e
    exact ⟨h, hv⟩
  · exact hs ps v b hm

theorem AritiesParsed.literal {sc : Scopes} {name : Option String} {as : List (Arity Expr)}
    {span : Span} (h : AritiesParsed sc name as) : FnLiteral.Parsed .bare sc ⟨name, as, span, none⟩ :=
  ⟨⟨rfl, fun a ha => (h a.params a.variadic a.body ha).2⟩, fun ps v b hm => (h ps v b hm).1⟩

/-- The parts of a `try`. -/
def ClausesParsed (sc : Scopes) (r : List (CatchClause Expr) × Option (List Expr)) : Prop :=
  (∀ cls name body, CatchClause.mk cls name body ∈ r.1 → AllParsed .bare ([name] :: sc) .top body) ∧
    ∀ body, r.2 = some body → AllParsed .bare sc .top body

theorem defineMacro_follows (H : C.Shared) {w : C.World} {p : Position}
    (name : Form) {span : Span} {a : Parse (FnLiteral Expr)} {b : Nat → Parse (FnLiteral Expr)}
    (h : ∀ w, C.Follows short (C.from_ (FnLiteral.relocate g) (FnLiteral.Parsed .bare sc)) C.parseFault w a b) :
    C.Follows short (C.placed g sc p) C.parseFault w (do
        let v ← definedVar name
        Act.updateStore (Store.setMacro v true)
        return .define v (some (.fn (← a) span)) span) fun m => do
      let v ← definedVar name
      Act.updateStore (Store.setMacro v true)
      return .define v (some (.fn (← b m) span)) span := by
  refine (definedVar_follows H w name).bind fun w₁ v v' _ e => ?_
  cases e
  refine (H.setMacro w₁ v true).bind fun w₂ _ _ _ _ => ?_
  refine (h w₂).bind_pure fun _ f f' _ hf => ?_
  obtain ⟨rfl, hf⟩ := hf
  exact ⟨rfl, .define fun e he => by cases he; exact hf.expr⟩

section Forms

set_option linter.unusedSectionVars false

variable (H : C.Shared) (hw : Macro.Spares avoid) (hx : C.Expansions short avoid x y)

include H hw hx

mutual

/-- The parsers of the second follow those of the first, and make the same expressions. -/
theorem parse_follows (f : Form) (hf : f.Fit avoid) {deep sc : Scopes}
    (hc : Scopes.Covers avoid g deep sc) (p : Position) (w : C.World) :
    C.Follows short (C.placed g sc p) C.parseFault w (f.parse x deep p) fun m =>
      f.parse (y m) sc p := by
  match f with
  | .atom v span =>
    simp only [Form.parse]
    cases hf.proper with
    | atom h => exact .pure ⟨rfl, .literal h⟩
  | .symbol name span =>
    simp only [Form.parse]
    exact reference_follows H w hc p (Form.fit_symbol.mp hf) span
  | .vector items span =>
    simp only [Form.parse]
    refine (parseOnto_follows [] AllParsed.nil items (Form.fit_vector.mp hf) hc w).bind_pure
      fun _ es es' _ he => ?_
    obtain ⟨rfl, he, -⟩ := he
    exact ⟨rfl, .vector he⟩
  | .set items span =>
    simp only [Form.parse]
    refine (parseOnto_follows [] AllParsed.nil items hf.set hc w).bind fun w₁ es es' _ he => ?_
    obtain ⟨rfl, he, -⟩ := he
    simp only [distinct_relocate]
    exact (distinct_follows w₁ es' span).bind fun _ _ _ _ _ => .pure ⟨rfl, .set he⟩
  | .map items span =>
    simp only [Form.parse]
    obtain ⟨hl, hi⟩ := hf.map
    refine (parseOnto_follows [] AllParsed.nil items hi hc w).bind fun w₁ es es' _ he => ?_
    obtain ⟨rfl, he, hn⟩ := he
    simp only [everyOther_relocate, distinct_relocate]
    refine (distinct_follows w₁ _ span).bind fun _ _ _ _ _ => .pure ⟨rfl, .map ?_ he⟩
    rw [hn]
    simpa using hl
  | .list [] span =>
    simp only [Form.parse]
    exact .pure ⟨rfl, .literal fun _ => rfl⟩
  | .list (head :: args) span =>
    have ha := (Form.fit_list.mp hf).tail
    unfold Form.parse
    dsimp only
    split
    · match args with
      | [f] =>
        exact .pure ⟨rfl, .quote fun ρ => ha.head.proper.toValue_steady ρ⟩
      | [] | _ :: _ :: _ => exact raise_follows (ParseFault.plain_wrongArity _ _) span
    · match args with
      | [test, yes] =>
        refine (parse_follows test ha.head hc p.nonTail w).bind fun w₁ t t' _ ht => ?_
        obtain ⟨rfl, ht⟩ := ht
        refine (parse_follows yes ha.tail.head hc p w₁).bind_pure fun w₂ y y' _ hy => ?_
        obtain ⟨rfl, hy⟩ := hy
        exact ⟨rfl, .cond ht hy nofun⟩
      | [test, yes, no] =>
        refine (parse_follows test ha.head hc p.nonTail w).bind fun w₁ t t' _ ht => ?_
        obtain ⟨rfl, ht⟩ := ht
        refine (parse_follows yes ha.tail.head hc p w₁).bind fun w₂ y y' _ hy => ?_
        obtain ⟨rfl, hy⟩ := hy
        refine (parse_follows no ha.tail.tail.head hc p w₂).bind_pure fun w₃ n n' _ hn => ?_
        obtain ⟨rfl, hn⟩ := hn
        exact ⟨rfl, .cond ht hy fun e he => by cases he; exact hn⟩
      | [] | [_] | _ :: _ :: _ :: _ :: _ =>
        exact raise_follows (ParseFault.plain_wrongArity _ _) span
    · refine (parseBody_follows [] AllParsed.nil args ha hc (fun _ => rfl) w).bind_pure fun _ es es' _ he => ?_
      obtain ⟨rfl, he⟩ := he
      exact ⟨rfl, .block he⟩
    · match args with
      | .vector pairs place :: body =>
        have hp := Form.fit_vector.mp ha.head
        dsimp only
        refine guard_follows (ParseFault.plain_general (by decide) (by decide)) fun _ => ?_
        refine (parseBindings_follows [] .nil pairs hp hc w).bind fun w₁ r r' _ hb => ?_
        obtain ⟨bs, inner⟩ := r
        obtain ⟨bs', inner'⟩ := r'
        obtain ⟨rfl, hb, hc'⟩ := hb
        refine (parseBody_follows [] AllParsed.nil body ha.tail hc' (fun _ => rfl) w₁).bind_pure
          fun w₂ es es' _ he => ?_
        obtain ⟨rfl, he⟩ := he
        exact ⟨rfl, .letIn hb he⟩
      | [] | .atom .. :: _ | .symbol .. :: _ | .list .. :: _ | .map .. :: _ | .set .. :: _ =>
        exact fail_follows (by decide) (by decide) span
    · match args with
      | .vector pairs place :: body =>
        have hp := Form.fit_vector.mp ha.head
        dsimp only
        refine guard_follows (ParseFault.plain_general (by decide) (by decide)) fun _ => ?_
        refine (parseBindings_follows [] .nil pairs hp hc w).bind fun w₁ r r' _ hb => ?_
        obtain ⟨bs, inner⟩ := r
        obtain ⟨bs', inner'⟩ := r'
        obtain ⟨rfl, hb, hc'⟩ := hb
        dsimp only
        rw [length_relocateBindings]
        refine (parseBody_follows [] AllParsed.nil body ha.tail hc' (fun _ => rfl) w₁).bind_pure
          fun w₂ es es' _ he => ?_
        obtain ⟨rfl, he⟩ := he
        exact ⟨rfl, .loop hb he⟩
      | [] | .atom .. :: _ | .symbol .. :: _ | .list .. :: _ | .map .. :: _ | .set .. :: _ =>
        exact fail_follows (by decide) (by decide) span
    · refine (checkRecur_follows w p args.length span).bind fun w₁ _ _ _ hr => ?_
      refine (parseOnto_follows [] AllParsed.nil args ha hc w₁).bind_pure
        fun w₂ es es' _ he => ?_
      obtain ⟨rfl, he, hn⟩ := he
      refine ⟨rfl, .recur hr.2.1 ?_ he⟩
      rw [hr.2.2, hn]
      simp
    · match args with
      | .symbol name place :: rest =>
        refine (parseFn_follows (some name) span rest ha.tail hc w).bind_pure fun _ f f' _ h => ?_
        obtain ⟨rfl, h⟩ := h
        exact ⟨rfl, h.expr⟩
      | [] =>
        refine (parseFn_follows none span [] Form.AllFit.nil hc w).bind_pure fun _ f f' _ h => ?_
        obtain ⟨rfl, h⟩ := h
        exact ⟨rfl, h.expr⟩
      | .atom v s :: rest | .list v s :: rest | .vector v s :: rest | .map v s :: rest
      | .set v s :: rest =>
        refine (parseFn_follows none span _ ha hc w).bind_pure fun _ f f' _ h => ?_
        obtain ⟨rfl, h⟩ := h
        exact ⟨rfl, h.expr⟩
    · match args with
      | [name] =>
        exact (definedVar_follows H w name).bind_pure fun _ v v' _ e => by
          cases e
          exact ⟨rfl, .define nofun⟩
      | [name, value] =>
        refine (definedVar_follows H w name).bind fun w₁ v v' _ e => ?_
        cases e
        refine (parse_follows value ha.tail.head hc p.nonTail w₁).bind_pure fun _ e e' _ he => ?_
        obtain ⟨rfl, he⟩ := he
        exact ⟨rfl, .define fun e h => by cases h; exact he⟩
      | [name, doc, value] =>
        refine (definedVar_follows H w name).bind fun w₁ v v' _ e => ?_
        cases e
        refine (parse_follows value ha.tail.tail.head hc p.nonTail w₁).bind_pure
          fun _ e e' _ he => ?_
        obtain ⟨rfl, he⟩ := he
        exact ⟨rfl, .define fun e h => by cases h; exact he⟩
      | [] | _ :: _ :: _ :: _ :: _ => exact raise_follows (ParseFault.plain_wrongArity _ _) span
    · match args with
      | [target, value] =>
        refine (symbolName_follows w _ target).bind fun w₁ name name' _ e => ?_
        obtain ⟨rfl, hn⟩ := e
        refine (parse_follows value ha.tail.head hc p.nonTail w₁).bind fun w₂ e e' _ he => ?_
        obtain ⟨rfl, he⟩ := he
        exact assignment_follows H w₂ hc p (ha.head.avoids _ (Form.mem_symbols_of_symbol? hn)) target.span he
          span
      | [] | [_] | _ :: _ :: _ :: _ => exact raise_follows (ParseFault.plain_wrongArity _ _) span
    · match args with
      | [f] => exact theVar_follows H w f span
      | [] | _ :: _ :: _ => exact raise_follows (ParseFault.plain_wrongArity _ _) span
    · match args with
      | [value] =>
        refine (parse_follows value ha.head hc p.nonTail w).bind_pure fun _ e e' _ he => ?_
        obtain ⟨rfl, he⟩ := he
        exact ⟨rfl, .throw he⟩
      | [] | _ :: _ :: _ => exact raise_follows (ParseFault.plain_wrongArity _ _) span
    · refine (parseClauses_follows [] (fun _ _ _ h => absurd h List.not_mem_nil) none nofun args ha hc
        w).bind fun w₁ r r' _ hr => ?_
      obtain ⟨rfl, hr⟩ := hr
      refine (parseTried_follows [] AllParsed.nil args ha hc w₁).bind_pure fun w₂ es es' _ he => ?_
      obtain ⟨rfl, he⟩ := he
      exact ⟨rfl, .attempt he hr.1 hr.2⟩
    · split
      · rename_i name text place first rest
        exact defineMacro_follows H name fun w' =>
          parseFn_follows name.symbol? span (first :: rest) ha.tail.tail hc w'
      · rename_i name first rest _
        exact defineMacro_follows H name fun w' =>
          parseFn_follows name.symbol? span (first :: rest) ha.tail hc w'
      · exact raise_follows (ParseFault.plain_wrongArity _ _) span
    · have hcall : ∀ w', C.Follows short (C.placed g sc p) C.parseFault w' (do
          let callee ← head.parse x deep p.nonTail
          return .call callee (← parseOnto x [] args deep p.nonTail) span) fun m => do
          let callee ← head.parse (y m) sc p.nonTail
          return .call callee (← parseOnto (y m) [] args sc p.nonTail) span := by
        intro w'
        refine (parse_follows head (Form.fit_list.mp hf).head hc p.nonTail w').bind fun w₁ c c' _ hhead => ?_
        obtain ⟨rfl, hhead⟩ := hhead
        refine (parseOnto_follows [] AllParsed.nil args ha hc w₁).bind_pure fun w₂ es es' _ he => ?_
        obtain ⟨rfl, he, -⟩ := he
        exact ⟨rfl, .call hhead he⟩
      split
      · rename_i name hn
        obtain ⟨place, rfl⟩ := Form.eq_symbol_of_symbol? hn
        refine (rewrite?_follows H hw hx w hf hc p).bind fun w₁ o o' _ ho => ?_
        obtain ⟨rfl, ho⟩ := ho
        cases o' with
        | some e => exact .pure ⟨rfl, ho e rfl⟩
        | none => exact hcall w₁
      · exact hcall w
termination_by sizeOf f
decreasing_by
  all_goals
    subst_vars
    simp only [Form.vector.sizeOf_spec, Form.set.sizeOf_spec, Form.map.sizeOf_spec, Form.list.sizeOf_spec,
      List.cons.sizeOf_spec]
    omega

theorem parseOnto_follows (acc : List Expr) {deep sc : Scopes} {p : Position}
    (ha : AllParsed .bare sc p acc) (fs : List Form) (hfs : Form.AllFit avoid fs)
    (hc : Scopes.Covers avoid g deep sc) (w : C.World) :
    C.Follows short (C.from_ (relocateAll g) fun es =>
        AllParsed .bare sc p es ∧ es.length = acc.length + fs.length)
      C.parseFault w (parseOnto x (relocateAll g acc) fs deep p) fun m =>
        parseOnto (y m) acc fs sc p := by
  match fs with
  | [] =>
    simp only [parseOnto]
    exact .pure ⟨(relocateAll_reverse g acc).symm, ha.reverse, List.length_reverse⟩
  | f :: rest =>
    simp only [parseOnto]
    refine (parse_follows f hfs.head hc p w).bind fun w₁ e e' _ he => ?_
    obtain ⟨rfl, he⟩ := he
    refine (parseOnto_follows (e' :: acc) (.cons he ha) rest hfs.tail hc w₁).imp
      (fun _ es es' _ h => ⟨h.1, h.2.1, ?_⟩) fun _ _ _ _ h => h
    rw [h.2.2, List.length_cons, List.length_cons]
    omega
termination_by sizeOf fs
decreasing_by
  all_goals
    subst_vars
    simp only [List.cons.sizeOf_spec]
    omega

theorem parseBody_follows (acc : List Expr) {deep sc : Scopes} {p : Position}
    (ha : AllParsed .bare sc p.nonTail acc) (fs : List Form) (hfs : Form.AllFit avoid fs)
    (hc : Scopes.Covers avoid g deep sc) (he : fs = [] → acc = []) (w : C.World) :
    C.Follows short (C.from_ (relocateAll g) (BodyParsed .bare sc p)) C.parseFault w
      (parseBody x (relocateAll g acc) fs deep p) fun m => parseBody (y m) acc fs sc p := by
  match fs with
  | [] =>
    simp only [parseBody]
    rw [he rfl]
    exact .pure ⟨rfl, .nil⟩
  | [f] =>
    simp only [parseBody]
    refine (parse_follows f hfs.head hc p w).bind_pure fun w₁ e e' _ he => ?_
    obtain ⟨rfl, he⟩ := he
    refine ⟨(relocateAll_reverse g (e' :: acc)).symm, ?_⟩
    rw [List.reverse_cons]
    exact BodyParsed.prepend ha (.last he)
  | f :: f' :: rest =>
    simp only [parseBody]
    refine (parse_follows f hfs.head hc p.nonTail w).bind fun w₁ e e' _ he => ?_
    obtain ⟨rfl, he⟩ := he
    exact parseBody_follows (e' :: acc) (.cons he ha) (f' :: rest) hfs.tail hc nofun w₁
termination_by sizeOf fs
decreasing_by
  all_goals
    subst_vars
    simp only [List.cons.sizeOf_spec]
    omega

theorem parseBindings_follows {outer deep sc : Scopes} (acc : List (Bound Expr))
    {names : List String} {p : Position} (ha : BindingsParsed .bare outer p acc.reverse (names :: sc))
    (fs : List Form) (hfs : Form.AllFit avoid fs) (hc : Scopes.Covers avoid g deep sc)
    (w : C.World) :
    C.Follows short (fun _ r r' => r.1 = relocateBindings g r'.1 ∧
        BindingsParsed .bare outer p r'.1 r'.2 ∧ Scopes.Covers avoid g r.2 r'.2) C.parseFault w
      (parseBindings x (relocateBindings g acc) fs (names :: deep) p) fun m =>
        parseBindings (y m) acc fs (names :: sc) p := by
  match fs with
  | [] | [_] =>
    simp only [parseBindings]
    exact .pure ⟨(relocateBindings_reverse g acc).symm, ha, hc.push names⟩
  | name :: init :: rest =>
    simp only [parseBindings]
    refine (ofExcept_follows w fun e => plain_of_bindingName).bind fun w₁ n n' _ e => ?_
    cases e.1
    refine (parse_follows init hfs.tail.head (hc.push names) p w₁).bind fun w₂ e e' _ he => ?_
    obtain ⟨rfl, he⟩ := he
    have hacc : BindingsParsed .bare outer p (⟨n, e'⟩ :: acc : List (Bound Expr)).reverse
        ((n :: names) :: sc) := by
      rw [List.reverse_cons]
      exact ha.append (.cons he .nil)
    exact parseBindings_follows (⟨n, e'⟩ :: acc) hacc rest hfs.tail.tail hc w₂
termination_by sizeOf fs
decreasing_by
  all_goals
    subst_vars
    simp only [List.cons.sizeOf_spec]
    omega

theorem parseFn_follows (name : Option String) (span : Span) (fs : List Form)
    (hfs : Form.AllFit avoid fs) {deep sc : Scopes} (hc : Scopes.Covers avoid g deep sc)
    (w : C.World) :
    C.Follows short (C.from_ (FnLiteral.relocate g) (FnLiteral.Parsed .bare sc)) C.parseFault w
      (parseFn x name span fs deep) fun m => parseFn (y m) name span fs sc := by
  match fs with
  | .vector params place :: body =>
    simp only [parseFn]
    refine (ofExcept_follows w fun e => plain_of_parameters).bind fun w₁ r r' _ e => ?_
    obtain ⟨e, hr⟩ := e
    cases e
    refine (parseBody_follows [] AllParsed.nil body hfs.tail (hc.push _) (fun _ => rfl) w₁).bind_pure fun w₂ es es' _ he => ?_
    obtain ⟨rfl, he⟩ := he
    exact ⟨rfl, (AritiesParsed.cons he (ne_nil_of_parameters hr)
      fun _ _ _ h => absurd h List.not_mem_nil).literal⟩
  | .list items place :: more =>
    unfold parseFn
    dsimp only
    cases hn : notAnArity? (.list items place :: more) with
    | some f => exact raise_bind_follows (ParseFault.plain_unexpectedForm _ _) _ _ _
    | none =>
      match items with
      | [] => exact fail_follows (by decide) (by decide) span
      | params :: body =>
        have hb := Form.fit_list.mp hfs.head
        refine (ofExcept_follows w fun e => plain_of_parametersOf).bind fun w₁ r r' _ e => ?_
        obtain ⟨e, hr⟩ := e
        cases e
        refine (parseBody_follows [] AllParsed.nil body hb.tail (hc.push _) (fun _ => rfl) w₁).bind fun w₂ es es' _ he => ?_
        obtain ⟨rfl, he⟩ := he
        refine (parseArities_follows name span _ (AritiesParsed.cons he
          (ne_nil_of_parametersOf hr) fun _ _ _ h => absurd h List.not_mem_nil)
          more hfs.tail hc w₂).bind_pure fun w₃ as as' _ h => ?_
        obtain ⟨rfl, h⟩ := h
        exact ⟨rfl, h.literal⟩
  | [] | .atom .. :: _ | .symbol .. :: _ | .map .. :: _ | .set .. :: _ =>
    simp only [parseFn]
    exact fail_follows (by decide) (by decide) span
termination_by sizeOf fs
decreasing_by
  all_goals
    subst_vars
    simp only [Form.list.sizeOf_spec, List.cons.sizeOf_spec]
    omega

theorem parseArities_follows (name : Option String) (span : Span) (acc : List (Arity Expr))
    {deep sc : Scopes} (ha : AritiesParsed sc name acc) (fs : List Form)
    (hfs : Form.AllFit avoid fs) (hc : Scopes.Covers avoid g deep sc) (w : C.World) :
    C.Follows short (C.from_ (relocateArities g) (AritiesParsed sc name)) C.parseFault w
      (parseArities x name span (relocateArities g acc) fs deep) fun m =>
        parseArities (y m) name span acc fs sc := by
  match fs with
  | .list (params :: body) place :: more =>
    simp only [parseArities]
    have hb := Form.fit_list.mp hfs.head
    refine (ofExcept_follows w fun e => plain_of_parametersOf).bind fun w₁ r r' _ e => ?_
    obtain ⟨e, hr⟩ := e
    cases e
    refine (parseBody_follows [] AllParsed.nil body hb.tail (hc.push _) (fun _ => rfl) w₁).bind fun w₂ es es' _ he => ?_
    obtain ⟨rfl, he⟩ := he
    simp only [checkOverload_relocate]
    refine (checkOverload_follows w₂ span acc _).bind fun w₃ _ _ _ _ => ?_
    exact parseArities_follows name span _
      (ha.cons he (ne_nil_of_parametersOf hr)) more hfs.tail hc w₃
  | [] | .atom .. :: _ | .symbol .. :: _ | .vector .. :: _ | .map .. :: _ | .set .. :: _
  | .list [] _ :: _ =>
    simp only [parseArities]
    exact .pure ⟨(relocateArities_reverse g acc).symm,
      fun ps v b h => ha ps v b (List.mem_reverse.mp h)⟩
termination_by sizeOf fs
decreasing_by
  all_goals
    subst_vars
    simp only [Form.list.sizeOf_spec, List.cons.sizeOf_spec]
    omega

theorem parseClauses_follows (acc : List (CatchClause Expr)) {deep sc : Scopes}
    (ha : ∀ cls name body, CatchClause.mk cls name body ∈ acc → AllParsed .bare ([name] :: sc) .top body)
    (finish : Option (List Expr)) (hf : ∀ body, finish = some body → AllParsed .bare sc .top body)
    (fs : List Form) (hfs : Form.AllFit avoid fs) (hs : Scopes.Covers avoid g deep sc)
    (w : C.World) :
    C.Follows short (C.from_ (fun r => (relocateCatches g r.1, relocateBody g r.2))
        (ClausesParsed sc)) C.parseFault w
      (parseClauses x (relocateCatches g acc) (relocateBody g finish) fs deep) fun m =>
        parseClauses (y m) acc finish fs sc := by
  unfold parseClauses
  simp only [isSome_relocateBody, isEmpty_relocateCatches]
  split
  · exact .pure ⟨Prod.ext (relocateCatches_reverse g acc).symm rfl,
      fun c n b h => ha c n b (List.mem_reverse.mp h), hf⟩
  · rename_i place items span rest
    have hi := (Form.fit_list.mp hfs.head).tail
    refine guard_follows (ParseFault.plain_general (by decide) (by decide)) fun _ => ?_
    match hi' : items with
    | [] | [_] => exact raise_follows (ParseFault.plain_wrongArity _ _) span
    | cls :: name :: body =>
      refine (catchClass_follows w cls).bind fun w₁ c c' _ e => ?_
      cases e
      refine (ofExcept_follows w₁ fun e => plain_of_bindingName).bind fun w₂ n n' _ e => ?_
      cases e.1
      refine (parseOnto_follows [] AllParsed.nil body hi.tail.tail (hs.push _) w₂).bind fun w₃ es es' _ he => ?_
      obtain ⟨rfl, he, -⟩ := he
      refine parseClauses_follows (⟨c, n, es'⟩ :: acc) (fun c n b h => ?_) finish hf rest hfs.tail hs w₃
      rcases List.mem_cons.mp h with h | h
      · cases h
        exact he
      · exact ha c n b h
  · rename_i place body span rest
    have hb := (Form.fit_list.mp hfs.head).tail
    refine guard_follows (ParseFault.plain_general (by decide) (by decide)) fun _ => ?_
    refine (parseOnto_follows [] AllParsed.nil body hb hs w).bind fun w₁ es es' _ he => ?_
    obtain ⟨rfl, he, -⟩ := he
    exact parseClauses_follows acc ha (some es') (fun b h => by cases h; exact he) rest hfs.tail hs w₁
  · rename_i f rest _ _
    refine guard_follows (ParseFault.plain_general (by decide) (by decide)) fun _ => ?_
    exact parseClauses_follows acc ha finish hf rest hfs.tail hs w
termination_by sizeOf fs
decreasing_by
  all_goals
    subst_vars
    simp only [Form.list.sizeOf_spec, List.cons.sizeOf_spec]
    omega

theorem parseTried_follows (acc : List Expr) {deep sc : Scopes} (ha : AllParsed .bare sc .top acc)
    (fs : List Form) (hfs : Form.AllFit avoid fs) (hc : Scopes.Covers avoid g deep sc)
    (w : C.World) :
    C.Follows short (C.from_ (relocateAll g) (AllParsed .bare sc .top)) C.parseFault w
      (parseTried x (relocateAll g acc) fs deep) fun m => parseTried (y m) acc fs sc := by
  match fs with
  | [] =>
    simp only [parseTried]
    exact .pure ⟨(relocateAll_reverse g acc).symm, ha.reverse⟩
  | f :: rest =>
    simp only [parseTried]
    split
    · exact .pure ⟨(relocateAll_reverse g acc).symm, ha.reverse⟩
    · refine (parse_follows f hfs.head hc .top w).bind fun w₁ e e' _ he => ?_
      obtain ⟨rfl, he⟩ := he
      exact parseTried_follows (e' :: acc) (.cons he ha) rest hfs.tail hc w₁
termination_by sizeOf fs
decreasing_by
  all_goals
    subst_vars
    simp only [List.cons.sizeOf_spec]
    omega

end

end Forms

/-! ## Expansions -/

/-- What macros yield, where it stands. -/
theorem written_follows (H : C.Shared) (hw : Macro.Spares avoid) (hx : C.Expansions short avoid x y)
    {f : Form} (hf : Macro.Written avoid f) (hs : Scopes.Covers avoid g deep sc) (p : Position)
    (w : C.World) :
    C.Follows short (C.placed g sc p) C.parseFault w (f.parse x deep p) fun m =>
      f.parse (y m) sc p := by
  cases hf with
  | plain hf => exact parse_follows H hw hx f hf hs p w
  | @step conjunction fresh first rest span ht hf hr =>
    simp only [Macro.parse_logicalStep _ conjunction ht]
    refine (parse_follows H hw hx first hf (hs.push []) p.nonTail w).bind fun w₁ e e' _ he => ?_
    obtain ⟨rfl, he⟩ := he
    have hword : (if conjunction then "and" else "or") ∈ Macro.words := by
      cases conjunction <;> decide
    refine (parse_follows H hw hx _ (Macro.fit_headedBy hw hword span hr) (hs.push [fresh]) p
      w₁).bind_pure fun w₂ m m' _ hm => ?_
    obtain ⟨rfl, hm⟩ := hm
    exact ⟨(Macro.relocate_testing hs conjunction fresh e' m' span).symm,
      Macro.parsed_testing conjunction fresh he hm span⟩

theorem ofFormAt_follows (H : C.Shared) (hw : Macro.Spares avoid) {c : Caller} {d : Nat → Caller}
    (hc : C.Calls short c d) (hh : Heedful avoid c) (n : Nat) {f : Form}
    (hf : Macro.Written avoid f) (hs : Scopes.Covers avoid g deep sc) (p : Position) (w : C.World) :
    C.Follows short (C.placed g sc p) C.parseFault w (Expr.ofFormAt c n f deep p) fun m =>
      Expr.ofFormAt (d m) n f sc p := by
  induction n generalizing f g deep sc p w with
  | zero =>
    exact written_follows H hw
      ⟨fun w f _ _ _ p _ _ => fail_follows (by decide) (by decide) _, hc, hh⟩ hf hs p w
  | succ n ih =>
    exact written_follows H hw ⟨fun w f _ _ _ p hf hs => ih hf hs p w, hc, hh⟩ hf hs p w

theorem ofForm_follows (H : C.Shared) {c : Caller} {d : Nat → Caller} (hc : C.Calls short c d)
    {f : Form} (hf : f.Proper) (w : C.World) :
    C.Follows short (C.parsed [] .top) C.parseFault w (Expr.ofForm c f) fun m =>
      Expr.ofForm (d m) f :=
  (ofFormAt_follows H Macro.spares_none hc (heedful_none c) maxExpansions (.plain hf.fit)
    (.refl _ []) .top w).imp (fun w' e e' _ he => by
      obtain ⟨rfl, he⟩ := he
      rw [Expr.relocate_id]
      exact ⟨rfl, he⟩) fun _ _ _ _ h => h

end Coupling

/-! ## A parser by itself -/

namespace Coupling

/-- The same state on both sides. -/
def alone : Coupling where
  toNearness := .same
  World := Unit
  le _ _ := True
  refl _ := trivial
  trans _ _ := trivial
  ext _ ρ := ρ = .id
  plain _ := ⟨_, rfl, Renaming.plain_id⟩
  anti _ h := h
  limits _ l := l
  related _ s t := t = s
  spent _ _ _ := True
  spent_anti _ _ := trivial
  lags _ _ := False
  lags_mono _ h := h
  spent_of_related _ _ := trivial
  spent_of_lags _ _ _ _ := trivial
  allowed _ := True
  allowed_of_plain _ := trivial
  allowed_thrown _ _ := trivial

theorem literal_alone : alone.Literal := fun h => h

theorem shared_alone : alone.Shared where
  common h := by
    cases h
    exact ⟨rfl, rfl, rfl, rfl, fun ρ hρ => by cases hρ; simp⟩
  change {w s t s' t'} h hs _ ht hc := by
    cases h
    change t' = s'
    have hvars := hc.vars .id rfl
    rw [Definition.rename_id, Array.map_id] at hvars
    rw [hs, ht, hvars, hc.raised, hc.names, hc.gensyms, hc.output]

theorem calls_alone (c : Caller) : alone.Calls (fun _ => False) c fun _ => c := by
  intro w f g xs ys hf hx s t hst
  cases hst
  cases literal_alone.value_iff.mp hf
  cases literal_alone.values_iff.mp hx
  cases hr : c f xs s with
  | ok x s' =>
    exact @Match.ok alone _ _ _ _ _ _ w () x x s' s' _ trivial (literal_alone.value_iff.mpr rfl) rfl
      (.of_eq fun _ _ => hr)
  | error e s' =>
    cases e with
    | raised e =>
      refine @Match.raised alone _ _ _ _ _ _ w () e e s' s' _ trivial ⟨trivial, fun ρ hρ => ?_, rfl⟩ rfl (.of_eq fun _ _ => hr)
      cases hρ
      exact (RuntimeFault.rename_id _).symm
    | exhausted => exact .exhausted (.inr nofun)

theorem value_of_alone {ε α β : Type} {V : Unit → α → β → Prop} {X : Unit → ε → ε → Prop}
    {a : Act ε α} {b : Act ε β} (h : alone.Follows (fun _ => False) V X () a fun _ => b)
    {s s' : State} {x : α} (ha : a s = .ok x s') : ∃ y, b s = .ok y s' ∧ V () x y := by
  have hm := h s s rfl
  rw [ha] at hm
  cases hm with
  | @ok w' x y s' t' _ hw hx hs hc =>
    obtain ⟨K, hK⟩ := hc
    have hb : b s = .ok y t' := (hK K (Nat.le_refl K)).2 K (Nat.le_refl K)
    cases hs
    exact ⟨y, hb, hx⟩

end Coupling

open Coupling in
/-- The parser makes programs where they stand, whatever the macros it calls may do. -/
theorem Expr.parsed_of_ofFormAt {call : Caller} {n : Nat} {f : Form} {sc : Scopes} {p : Position}
    {s s' : State} {e : Expr} (hf : f.Proper) (h : Expr.ofFormAt call n f sc p s = .ok e s') :
    e.Parsed .bare sc p := by
  obtain ⟨y, -, rfl, hy⟩ := value_of_alone (ofFormAt_follows shared_alone Macro.spares_none
    (calls_alone call) (heedful_none call) n (.plain hf.fit) (.refl _ sc) p ()) h
  rwa [Expr.relocate_id]

theorem Expr.parsed_of_ofForm {call : Caller} {f : Form} {s s' : State} {e : Expr} (hf : f.Proper)
    (h : Expr.ofForm call f s = .ok e s') : e.Parsed .bare [] .top := Expr.parsed_of_ofFormAt hf h

end TwinLisp
