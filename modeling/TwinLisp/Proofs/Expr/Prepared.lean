import TwinLisp.Bytecode.Eligible
import TwinLisp.Proofs.Expr.Bytecode
import TwinLisp.Proofs.Expr.Parsed

/-! Programs whose function literals have been compiled. A literal keeps its parts when its bytecode
is stored beside it, and a literal without bytecode may contain others with it, so the program is
still one of the parser, under rules that admit what was compiled.

* `Expr.Rules.storing`: the rules that admit certain bytecode beside a literal.
* `Expr.annotate_parsed`: the pass that stores bytecode, under such rules.
* `Expr.Alike`: expressions that differ in bytecode alone. -/

namespace TwinLisp

/-- Literals have no bytecode, or such as `good` admits. -/
def Expr.Rules.storing (good : Scopes → FnLiteral Expr → Proto → Prop) (late : Prop) : Expr.Rules :=
  ⟨fun sc f => ∀ p, f.compiled = some p → good sc f p, late⟩

namespace Traced

/-- What is told does not matter: the pass has a value with some property. -/
def Yields {α : Type} (a : Traced α) (Q : α → Prop) : Prop := ∀ lines, Q (a.run lines).1

variable {α β : Type} {Q : α → Prop}

theorem Yields.pure {x : α} (h : Q x) : Yields (Pure.pure x) Q := fun _ => h

theorem Yields.bind {a : Traced α} (h : Yields a Q) {R : β → Prop} {f : α → Traced β}
    (hf : ∀ x, Q x → Yields (f x) R) : Yields (a >>= f) R := fun lines =>
  hf _ (h lines) _

theorem Yields.imp {a : Traced α} (h : Yields a Q) {R : α → Prop} (hR : ∀ x, Q x → R x) :
    Yields a R := fun lines => hR _ (h lines)

theorem yields_tell (line : String) : Yields (tell line) fun _ => True := fun _ => trivial

end Traced

open Traced

/-! ## Weaker rules -/

section Imp

variable {R R' : Expr.Rules} (hl : ∀ sc f, R.literal sc f → R'.literal sc f) (hr : R.late → R'.late)

include hl hr

set_option linter.unusedSectionVars false

mutual

theorem Expr.Parsed.imp (e : Expr) {sc : Scopes} {p : Position} (h : e.Parsed R sc p) :
    e.Parsed R' sc p := by
  cases h with
  | literal h => exact .literal h
  | quote h => exact .quote h
  | vector h => exact .vector (allParsed_imp _ h)
  | set h => exact .set (allParsed_imp _ h)
  | map he h => exact .map he (allParsed_imp _ h)
  | localRef h => exact .localRef h
  | varRef => exact .varRef
  | theVar => exact .theVar
  | cond ht hy hn => exact .cond (ht.imp) (hy.imp) (optionParsed_imp _ hn)
  | block h => exact .block (bodyParsed_imp _ h)
  | letIn hb h => exact .letIn (bindingsParsed_imp _ hb) (bodyParsed_imp _ h)
  | loop hb h => exact .loop (bindingsParsed_imp _ hb) (bodyParsed_imp _ h)
  | recur ht ha h => exact .recur ht ha (allParsed_imp _ h)
  | fn hc h => exact .fn (hl _ _ hc) (aritiesParsed_imp _ h)
  | define h => exact .define (optionParsed_imp _ h)
  | setLocal hb h => exact .setLocal hb h.imp
  | setVar h => exact .setVar h.imp
  | call hc h => exact .call hc.imp (allParsed_imp _ h)
  | throw h => exact .throw h.imp
  | attempt h hc hf =>
    exact .attempt (allParsed_imp _ h) (catchesParsed_imp _ hc) (finishParsed_imp _ hf)
  | macroCall hm h => exact .macroCall (hr hm) h

theorem allParsed_imp (es : List Expr) {sc : Scopes} {p : Position} (h : AllParsed R sc p es) :
    AllParsed R' sc p es := by
  cases es with
  | nil => exact .nil
  | cons e rest =>
    exact .cons (h e List.mem_cons_self).imp
      (allParsed_imp rest fun e' he => h e' (List.mem_cons_of_mem e he))

theorem optionParsed_imp (o : Option Expr) {sc : Scopes} {p : Position}
    (h : ∀ e, o = some e → e.Parsed R sc p) : ∀ e, o = some e → e.Parsed R' sc p := by
  cases o with
  | none => exact nofun
  | some e =>
    intro e' he
    cases he
    exact (h e rfl).imp

theorem bodyParsed_imp (es : List Expr) {sc : Scopes} {p : Position} (h : BodyParsed R sc p es) :
    BodyParsed R' sc p es := by
  match es, h with
  | [], .nil => exact .nil
  | [_], .last h => exact .last h.imp
  | _ :: e :: rest, .cons h hr => exact .cons h.imp (bodyParsed_imp (e :: rest) hr)

theorem bindingsParsed_imp (bs : List (Bound Expr)) {sc inner : Scopes} {p : Position}
    (h : BindingsParsed R sc p bs inner) : BindingsParsed R' sc p bs inner := by
  match bs, h with
  | [], .nil => exact .nil
  | ⟨_, _⟩ :: rest, .cons h hr => exact .cons h.imp (bindingsParsed_imp rest hr)

theorem aritiesParsed_imp (as : List (Arity Expr)) {sc : Scopes} {name : String}
    (h : ∀ params variadic body, Arity.mk params variadic body ∈ as →
      BodyParsed R (sc.enterCall name params) (.body params.length) body) :
    ∀ params variadic body, Arity.mk params variadic body ∈ as →
      BodyParsed R' (sc.enterCall name params) (.body params.length) body := by
  cases as with
  | nil => exact fun _ _ _ hm => absurd hm List.not_mem_nil
  | cons a rest =>
    obtain ⟨ps, v, b⟩ := a
    have hb := bodyParsed_imp b (h ps v b List.mem_cons_self)
    intro params variadic body hm
    rcases List.mem_cons.mp hm with e | hm
    · cases e
      exact hb
    · exact aritiesParsed_imp rest (fun ps v b hm => h ps v b (List.mem_cons_of_mem _ hm)) params
        variadic body hm

theorem catchesParsed_imp (cs : List (CatchClause Expr)) {sc : Scopes}
    (h : ∀ cls name body, CatchClause.mk cls name body ∈ cs →
      AllParsed R ([name] :: sc) .top body) :
    ∀ cls name body, CatchClause.mk cls name body ∈ cs → AllParsed R' ([name] :: sc) .top body := by
  cases cs with
  | nil => exact fun _ _ _ hm => absurd hm List.not_mem_nil
  | cons c rest =>
    obtain ⟨k, n, b⟩ := c
    have hb := allParsed_imp b (h k n b List.mem_cons_self)
    intro cls name body hm
    rcases List.mem_cons.mp hm with e | hm
    · cases e
      exact hb
    · exact catchesParsed_imp rest (fun k n b hm => h k n b (List.mem_cons_of_mem _ hm)) cls name
        body hm

theorem finishParsed_imp (o : Option (List Expr)) {sc : Scopes}
    (h : ∀ body, o = some body → AllParsed R sc .top body) :
    ∀ body, o = some body → AllParsed R' sc .top body := by
  cases o with
  | none => exact nofun
  | some body =>
    intro body' he
    cases he
    exact allParsed_imp body (h body rfl)

end

end Imp

theorem Expr.Parsed.storing {good : Scopes → FnLiteral Expr → Proto → Prop} {e : Expr}
    {sc : Scopes} {p : Position} (h : e.Parsed .bare sc p) :
    e.Parsed (.storing good True) sc p := by
  have hl : ∀ sc f, Expr.Rules.bare.literal sc f →
      (Expr.Rules.storing good True).literal sc f := by
    rintro sc f ⟨hf, -⟩ q hq
    rw [hf] at hq
    cases hq
  exact Expr.Parsed.imp hl (fun _ => trivial) e h

/-! ## The pass that compiles literals -/

/-- Two expressions are the same but for the bytecode of their literals. -/
def Expr.Alike (e e' : Expr) : Prop :=
  e'.mapBytecode (fun _ => none) = e.mapBytecode fun _ => none

/-- Two literals are the same but for bytecode. -/
def FnLiteral.Alike (f f' : FnLiteral Expr) : Prop :=
  f'.mapBytecode (fun _ => none) = f.mapBytecode fun _ => none

/-- Whether a literal is well formed does not depend on bytecode. -/
theorem FnLiteral.formed_mapBytecode (g : Option Proto → Option Proto) (f : FnLiteral Expr) :
    (f.mapBytecode g).Formed ↔ f.Formed := by
  rw [FnLiteral.Formed, FnLiteral.mapBytecode, mapBytecodeArities_eq_map]
  simp only [List.forall_mem_map]
  rfl

theorem FnLiteral.Alike.formed {f f' : FnLiteral Expr} (h : f.Alike f') (hf : f.Formed) :
    f'.Formed := by
  rw [← FnLiteral.formed_mapBytecode fun _ => none] at hf ⊢
  rw [FnLiteral.Alike] at h
  rwa [h]

section Annotate

variable {R T : Expr.Rules} (hbare : ∀ sc f, R.literal sc f → f.compiled = none)
  (hplain : ∀ sc f f', R.literal sc f → f'.compiled = none → FnLiteral.Alike f f' → T.literal sc f')
  (hlate : R.late → T.late)
  (hgood : ∀ sc f p, f.Parsed R sc → f.compilable = true → Proto.ofFn f = .ok p →
    T.literal sc { f with compiled := some p })

include hgood in
theorem bytecode?_good {sc : Scopes} {f : FnLiteral Expr} (h : f.Parsed R sc)
    (hc : f.compiled = none) :
    Yields f.bytecode? fun o => ∀ p, o = some p → T.literal sc { f with compiled := some p } := by
  unfold FnLiteral.bytecode?
  rw [hc]
  by_cases hf : f.compilable = true
  · simp only [hf, Option.isSome_none, Bool.not_true, Bool.false_eq_true, if_false]
    cases hp : Proto.ofFn f with
    | ok p =>
      refine (yields_tell _).bind fun _ _ => .pure fun q hq => ?_
      cases hq
      exact hgood sc f p h hf hp
    | error => exact (yields_tell _).bind fun _ _ => .pure nofun
  · simp only [hf, Option.isSome_none, Bool.false_eq_true, if_false, Bool.not_false, if_true]
    exact (yields_tell _).bind fun _ _ => .pure nofun

include hbare hplain hlate hgood

set_option linter.unusedSectionVars false

mutual

/-- The pass yields a program of the parser under the rules that admit what was compiled, and
changes nothing but bytecode. -/
theorem Expr.annotate_parsed (e : Expr) {sc : Scopes} {p : Position} (h : e.Parsed R sc p) :
    Yields e.annotate fun e' =>
      e'.Parsed T sc p ∧ e.Alike e' := by
  cases e with
  | literal v span =>
    cases h with
    | literal h => exact .pure ⟨.literal h, rfl⟩
  | quote v span =>
    cases h with
    | quote h => exact .pure ⟨.quote h, rfl⟩
  | localRef b span =>
    cases h with
    | localRef h => exact .pure ⟨.localRef h, rfl⟩
  | varRef v span => exact .pure ⟨.varRef, rfl⟩
  | theVar v span => exact .pure ⟨.theVar, rfl⟩
  | macroCall v args span =>
    cases h with
    | macroCall hm h => exact .pure ⟨.macroCall (hlate hm) h, rfl⟩
  | vector items span =>
    rw [Expr.annotate]
    cases h with
    | vector h =>
      refine (annotateOnto_parsed items h .nil).bind fun es he => .pure ⟨.vector he.1, ?_⟩
      rw [Expr.Alike, Expr.mapBytecode, Expr.mapBytecode, he.2.1]
      rfl
  | set items span =>
    rw [Expr.annotate]
    cases h with
    | set h =>
      refine (annotateOnto_parsed items h .nil).bind fun es he => .pure ⟨.set he.1, ?_⟩
      rw [Expr.Alike, Expr.mapBytecode, Expr.mapBytecode, he.2.1]
      rfl
  | map items span =>
    rw [Expr.annotate]
    cases h with
    | map hm h =>
      refine (annotateOnto_parsed items h .nil).bind fun es he => .pure ⟨.map ?_ he.1, ?_⟩
      · rw [he.2.2]
        simpa using hm
      · rw [Expr.Alike, Expr.mapBytecode, Expr.mapBytecode, he.2.1]
        rfl
  | recur items span =>
    rw [Expr.annotate]
    cases h with
    | recur ht ha h =>
      refine (annotateOnto_parsed items h .nil).bind fun es he => .pure ⟨.recur ht ?_ he.1, ?_⟩
      · rw [he.2.2]
        simpa using ha
      · rw [Expr.Alike, Expr.mapBytecode, Expr.mapBytecode, he.2.1]
        rfl
  | cond test yes no span =>
    rw [Expr.annotate]
    cases h with
    | cond ht hy hn =>
      refine (test.annotate_parsed ht).bind fun t h₁ => ?_
      refine (yes.annotate_parsed hy).bind fun y h₂ => ?_
      refine (annotateOption_parsed no hn).bind fun o h₃ => .pure ⟨.cond h₁.1 h₂.1 h₃.1, ?_⟩
      rw [Expr.Alike, Expr.mapBytecode, Expr.mapBytecode, h₁.2, h₂.2, h₃.2]
  | block body span =>
    rw [Expr.annotate]
    cases h with
    | block h =>
      refine (annotateBlock_parsed body h .nil (.inl rfl)).bind fun es he => .pure ⟨.block he.1, ?_⟩
      rw [Expr.Alike, Expr.mapBytecode, Expr.mapBytecode, he.2]
      rfl
  | letIn bindings body span =>
    rw [Expr.annotate]
    cases h with
    | letIn hb h =>
      refine (annotateBindings_parsed bindings hb).bind fun bs h₁ => ?_
      refine (annotateBlock_parsed body h .nil (.inl rfl)).bind fun es he =>
        .pure ⟨.letIn h₁.1 he.1, ?_⟩
      rw [Expr.Alike, Expr.mapBytecode, Expr.mapBytecode, h₁.2.1, he.2]
      rfl
  | loop bindings body span =>
    rw [Expr.annotate]
    cases h with
    | loop hb h =>
      refine (annotateBindings_parsed bindings hb).bind fun bs h₁ => ?_
      refine (annotateBlock_parsed body h .nil (.inl rfl)).bind fun es he =>
        .pure ⟨.loop h₁.1 (h₁.2.2 ▸ he.1), ?_⟩
      rw [Expr.Alike, Expr.mapBytecode, Expr.mapBytecode, h₁.2.1, he.2]
      rfl
  | fn f span =>
    obtain ⟨name, arities, fspan, compiled⟩ := f
    rw [Expr.annotate]
    have hf : FnLiteral.Parsed R sc ⟨name, arities, fspan, compiled⟩ := .of_expr h
    have hc : compiled = none := hbare _ _ hf.literal
    subst hc
    refine (bytecode?_good hgood hf rfl).bind fun o ho => ?_
    cases o with
    | some q =>
      have himp : ∀ sc f, R.literal sc f → T.literal sc f := fun sc f h =>
        hplain sc f f h (hbare sc f h) rfl
      exact .pure ⟨.fn (ho q rfl) (aritiesParsed_imp himp hlate arities hf.arities), rfl⟩
    | none =>
      refine (annotateArities_parsed arities hf.arities).bind fun as h₁ =>
        .pure ⟨.fn (hplain sc _ _ hf.literal rfl ?_) h₁.1, ?_⟩
      · rw [FnLiteral.Alike, FnLiteral.mapBytecode, FnLiteral.mapBytecode, h₁.2]
      · rw [Expr.Alike, Expr.mapBytecode, Expr.mapBytecode, h₁.2]
  | define v value span =>
    rw [Expr.annotate]
    cases h with
    | define h =>
      refine (annotateOption_parsed value h).bind fun o ho => .pure ⟨.define ho.1, ?_⟩
      rw [Expr.Alike, Expr.mapBytecode, Expr.mapBytecode, ho.2]
  | setLocal b value span =>
    rw [Expr.annotate]
    cases h with
    | setLocal hb h =>
      refine (value.annotate_parsed h).bind fun v hv => .pure ⟨.setLocal hb hv.1, ?_⟩
      rw [Expr.Alike, Expr.mapBytecode, Expr.mapBytecode, hv.2]
  | setVar v value span =>
    rw [Expr.annotate]
    cases h with
    | setVar h =>
      refine (value.annotate_parsed h).bind fun v hv => .pure ⟨.setVar hv.1, ?_⟩
      rw [Expr.Alike, Expr.mapBytecode, Expr.mapBytecode, hv.2]
  | call callee args span =>
    rw [Expr.annotate]
    cases h with
    | call hc h =>
      refine (callee.annotate_parsed hc).bind fun f hf => ?_
      refine (annotateOnto_parsed args h .nil).bind fun es he => .pure ⟨.call hf.1 he.1, ?_⟩
      rw [Expr.Alike, Expr.mapBytecode, Expr.mapBytecode, hf.2, he.2.1]
      rfl
  | throw value span =>
    rw [Expr.annotate]
    cases h with
    | throw h =>
      refine (value.annotate_parsed h).bind fun v hv => .pure ⟨.throw hv.1, ?_⟩
      rw [Expr.Alike, Expr.mapBytecode, Expr.mapBytecode, hv.2]
  | attempt body catches finish span =>
    rw [Expr.annotate]
    cases h with
    | attempt h hc hf =>
      refine (annotateOnto_parsed body h .nil).bind fun es he => ?_
      refine (annotateCatches_parsed catches hc).bind fun cs hcs => ?_
      refine (annotateBody_parsed finish hf).bind fun o ho =>
        .pure ⟨.attempt he.1 hcs.1 ho.1, ?_⟩
      rw [Expr.Alike, Expr.mapBytecode, Expr.mapBytecode, he.2.1, hcs.2, ho.2]
      rfl

theorem annotateOnto_parsed (es : List Expr) {sc : Scopes} {p : Position} (h : AllParsed R sc p es)
    {acc : List Expr} (ha : AllParsed T sc p acc) :
    Yields (annotateOnto acc es) fun es' => AllParsed T sc p es' ∧
      mapBytecodeAll (fun _ => none) es' =
        mapBytecodeAll (fun _ => none) acc.reverse ++ mapBytecodeAll (fun _ => none) es ∧
      es'.length = acc.length + es.length := by
  cases es with
  | nil =>
    rw [annotateOnto]
    exact .pure ⟨ha.reverse, by rw [mapBytecodeAll, List.append_nil], by simp⟩
  | cons e rest =>
    rw [annotateOnto]
    refine (e.annotate_parsed (h e List.mem_cons_self)).bind fun e' he => ?_
    refine (annotateOnto_parsed rest (fun x hx => h x (List.mem_cons_of_mem e hx))
      (.cons he.1 ha)).imp fun es' hes => ⟨hes.1, ?_, ?_⟩
    · rw [hes.2.1, mapBytecodeAll_reverse_cons, mapBytecodeAll, he.2, List.append_assoc]
      rfl
    · rw [hes.2.2, List.length_cons, List.length_cons]
      omega

theorem annotateBlock_parsed (es : List Expr) {sc : Scopes} {p : Position}
    (h : BodyParsed R sc p es) {acc : List Expr}
    (ha : AllParsed T sc p.nonTail acc) (hne : acc = [] ∨ es ≠ []) :
    Yields (annotateOnto acc es) fun es' => BodyParsed T sc p es' ∧
      mapBytecodeAll (fun _ => none) es' =
        mapBytecodeAll (fun _ => none) acc.reverse ++ mapBytecodeAll (fun _ => none) es := by
  match es, h with
  | [], _ =>
    rcases hne with rfl | hne
    · exact .pure ⟨.nil, rfl⟩
    · exact absurd rfl hne
  | [e], .last h =>
    rw [annotateOnto]
    refine (e.annotate_parsed h).bind fun e' he => ?_
    rw [annotateOnto]
    refine .pure ⟨?_, ?_⟩
    · rw [List.reverse_cons]
      exact .prepend ha (.last he.1)
    · rw [mapBytecodeAll_reverse_cons, he.2]
      rfl
  | e :: e₁ :: rest, .cons h hr =>
    rw [annotateOnto]
    refine (e.annotate_parsed h).bind fun e' he => ?_
    refine (annotateBlock_parsed (e₁ :: rest) hr (.cons he.1 ha) (.inr (by simp))).imp
      fun es' hes => ⟨hes.1, ?_⟩
    rw [hes.2, mapBytecodeAll_reverse_cons, mapBytecodeAll, he.2, List.append_assoc]
    rfl

theorem annotateOption_parsed (o : Option Expr) {sc : Scopes} {p : Position}
    (h : ∀ e, o = some e → e.Parsed R sc p) :
    Yields (annotateOption o) fun o' => (∀ e, o' = some e → e.Parsed T sc p) ∧
      mapBytecodeOption (fun _ => none) o' = mapBytecodeOption (fun _ => none) o := by
  cases o with
  | none => exact .pure ⟨nofun, rfl⟩
  | some e =>
    rw [annotateOption]
    refine (e.annotate_parsed (h e rfl)).bind fun e' he => .pure ⟨fun x hx => ?_, ?_⟩
    · cases hx
      exact he.1
    · rw [mapBytecodeOption, mapBytecodeOption, he.2]

theorem annotateBody_parsed (o : Option (List Expr)) {sc : Scopes} {p : Position}
    (h : ∀ body, o = some body → AllParsed R sc p body) :
    Yields (annotateBody o) fun o' =>
      (∀ body, o' = some body → AllParsed T sc p body) ∧
      mapBytecodeBody (fun _ => none) o' = mapBytecodeBody (fun _ => none) o := by
  cases o with
  | none => exact .pure ⟨nofun, rfl⟩
  | some body =>
    rw [annotateBody]
    refine (annotateOnto_parsed body (h body rfl) .nil).bind fun es he => .pure ⟨fun x hx => ?_, ?_⟩
    · cases hx
      exact he.1
    · rw [mapBytecodeBody, mapBytecodeBody, he.2.1]
      rfl

theorem annotateBindings_parsed (bs : List (Bound Expr)) {sc inner : Scopes} {p : Position}
    (h : BindingsParsed R sc p bs inner) :
    Yields (annotateBindings bs) fun bs' => BindingsParsed T sc p bs' inner ∧
      mapBytecodeBindings (fun _ => none) bs' = mapBytecodeBindings (fun _ => none) bs ∧
      bs'.length = bs.length := by
  match bs, h with
  | [], .nil => exact .pure ⟨.nil, rfl, rfl⟩
  | ⟨name, init⟩ :: rest, .cons h hr =>
    rw [annotateBindings]
    refine (init.annotate_parsed h).bind fun e he => ?_
    refine (annotateBindings_parsed rest hr).bind fun bs' hbs => .pure ⟨.cons he.1 hbs.1, ?_, ?_⟩
    · rw [mapBytecodeBindings, mapBytecodeBindings, he.2, hbs.2.1]
    · rw [List.length_cons, List.length_cons, hbs.2.2]

theorem annotateArities_parsed (as : List (Arity Expr)) {sc : Scopes} {name : String}
    (h : ∀ params variadic body, Arity.mk params variadic body ∈ as →
      BodyParsed R (sc.enterCall name params) (.body params.length) body) :
    Yields (annotateArities as) fun as' =>
      (∀ params variadic body, Arity.mk params variadic body ∈ as' →
        BodyParsed T (sc.enterCall name params) (.body params.length) body) ∧
      mapBytecodeArities (fun _ => none) as' = mapBytecodeArities (fun _ => none) as := by
  cases as with
  | nil => exact .pure ⟨fun _ _ _ hm => absurd hm List.not_mem_nil, rfl⟩
  | cons a rest =>
    obtain ⟨ps, v, b⟩ := a
    rw [annotateArities]
    refine (annotateBlock_parsed b (h ps v b List.mem_cons_self) .nil (.inl rfl)).bind
      fun b' hb => ?_
    refine (annotateArities_parsed rest fun ps v b hm => h ps v b (List.mem_cons_of_mem _ hm)).bind
      fun as' has => .pure ⟨fun params variadic body hm => ?_, ?_⟩
    · rcases List.mem_cons.mp hm with e | hm
      · cases e
        exact hb.1
      · exact has.1 params variadic body hm
    · rw [mapBytecodeArities, mapBytecodeArities, hb.2, has.2]
      rfl

theorem annotateCatches_parsed (cs : List (CatchClause Expr)) {sc : Scopes}
    (h : ∀ cls name body, CatchClause.mk cls name body ∈ cs →
      AllParsed R ([name] :: sc) .top body) :
    Yields (annotateCatches cs) fun cs' =>
      (∀ cls name body, CatchClause.mk cls name body ∈ cs' →
        AllParsed T ([name] :: sc) .top body) ∧
      mapBytecodeCatches (fun _ => none) cs' = mapBytecodeCatches (fun _ => none) cs := by
  cases cs with
  | nil => exact .pure ⟨fun _ _ _ hm => absurd hm List.not_mem_nil, rfl⟩
  | cons c rest =>
    obtain ⟨k, n, b⟩ := c
    rw [annotateCatches]
    refine (annotateOnto_parsed b (h k n b List.mem_cons_self) .nil).bind fun b' hb => ?_
    refine (annotateCatches_parsed rest fun k n b hm => h k n b (List.mem_cons_of_mem _ hm)).bind
      fun cs' hcs => .pure ⟨fun cls name body hm => ?_, ?_⟩
    · rcases List.mem_cons.mp hm with e | hm
      · cases e
        exact hb.1
      · exact hcs.1 cls name body hm
    · rw [mapBytecodeCatches, mapBytecodeCatches, hb.2.1, hcs.2]
      rfl

end

end Annotate

end TwinLisp
