import TwinLisp.Eval.Engine
import TwinLisp.Proofs.Spots.Calls

/-! Evaluation up to byte offsets. A program without offsets has the value of the program with them,
or stops with the same fault at the same line and column; what it leaves behind differs in the
offsets that interpreted functions remember, and nothing else.

* `Engine.Spots`: an engine that does without offsets what it does with them.
* `Expr.flow_spots`, `Expr.eval_spots`: the answer and the value of an expression.
* `Value.apply_spots`: the call of a value.
* `Engine.spots_ofFuel`: the engine of every level. -/

namespace TwinLisp

open Located (SameSpot)
open Act (Spots Becomes Blind)
open Act.Spots (Outcome)
open TwinLisp.Expr (spotsAll spotsOption spotsBody spotsBindings spotsCatches)
open Eval Machine

/-! ## Locals and functions -/

namespace Eval

variable {α : Type}

theorem failAt_spots {U : α → α → Prop} (f : RuntimeFault) (span : Span) :
    Spots U SameSpot (Run.failAt f span : Run α) (Run.failAt f span.spot) :=
  .raise (.of_spot _ span)

theorem deref_spots (v : Var) (span : Span) :
    Spots (Becomes id) SameSpot (Run.deref v span) (Run.deref v span.spot) := by
  refine (Act.Spots.blind (Act.blind_varValue? v)).next fun o => ?_
  cases o with
  | some x => exact .pure rfl
  | none => exact failAt_spots _ span

theorem enter_spots (span : Span) :
    Spots (Becomes id) SameSpot (Run.enter span) (Run.enter span.spot) := by
  intro s
  have hdepth : s.spots.depth ≥ s.spots.config.maxDepth ↔ s.depth ≥ s.config.maxDepth := .rfl
  simp only [Run.enter, hdepth]
  split
  · exact .raised (.of_spot _ span)
  · exact .ok (s := { s with depth := s.depth + 1 }) rfl

theorem scope_spots (parent : Option Nat) (names : List String) (values : List Value) :
    Spots (Becomes id) SameSpot (Locals.framed.scope parent names values)
      (Locals.framed.scope parent names values) :=
  .blind (Blind.bind (.onStore fun _ => rfl) fun _ => .pure _)

theorem bind_spots (frame : Option Nat) (name : String) (v : Value) :
    Spots (Becomes id) SameSpot (Locals.framed.bind frame name v)
      (Locals.framed.bind frame name v) := by
  cases frame with
  | none => exact .pure rfl
  | some id => exact .blind (Blind.bind (.updateStore fun _ => rfl) fun _ => .pure _)

theorem readLocal_spots (b : Binding) (span : Span) (frame : Option Nat) :
    Spots (Becomes id) SameSpot (readLocal b span frame) (readLocal b span.spot frame) := by
  cases frame with
  | none => exact failAt_spots _ span
  | some i =>
    refine (Act.Spots.blind (.askStore fun _ => rfl)).next fun o => ?_
    cases o with
    | some v => exact .pure rfl
    | none => exact failAt_spots _ span

theorem writeLocal_spots (b : Binding) (span : Span) (frame : Option Nat) (v : Value) :
    Spots (Becomes id) SameSpot (writeLocal b span frame v) (writeLocal b span.spot frame v) := by
  cases frame with
  | none => exact failAt_spots _ span
  | some i =>
    refine (Act.Spots.blind (.askStore fun _ => rfl)).next fun o => ?_
    cases o with
    | some a => exact .blind (.updateStore fun _ => rfl)
    | none => exact failAt_spots _ span

theorem makeFunction_spots (f : FnLiteral Expr) (frame : Option Nat) :
    Spots (Becomes id) SameSpot (makeFunction f frame) (makeFunction f.spots frame) := by
  have hcompiled : f.spots.compiled = f.compiled := rfl
  unfold makeFunction
  rw [hcompiled]
  cases f.compiled with
  | some p => exact .blind (Blind.bind (.onStore fun _ => rfl) fun _ => .pure _)
  | none =>
    have hnew : Spots (Becomes id) SameSpot (Act.onStore (Store.newFunction ⟨f, frame⟩) : Run Nat)
        (Act.onStore (Store.newFunction ⟨f.spots, frame⟩)) := by
      refine .onStore fun s => ?_
      have hsize : (s.functions.map Function.spots).size = s.functions.size := Array.size_map ..
      have hpush : (s.functions.push ⟨f, frame⟩).map Function.spots =
          (s.functions.map Function.spots).push ⟨f.spots, frame⟩ := Array.map_push
      simp only [Store.newFunction, Store.seen, View.spots, hsize, hpush, id]
    exact hnew.bind_pure fun i _ e => by rw [e]; rfl

theorem throwValue_spots (v : Value) (span : Span) :
    Spots (Becomes id) SameSpot (throwValue v span) (throwValue v span.spot) := by
  unfold throwValue
  split
  · exact failAt_spots _ span
  · exact failAt_spots _ span

theorem caughtValue_spots {e e' : RuntimeError} (h : e.SameSpot e') :
    Spots (Becomes id) SameSpot (Run.caughtValue e) (Run.caughtValue e') := by
  have hmessage : e'.message = e.message := congrArg RuntimeFault.text h.cause
  unfold Run.caughtValue
  rw [h.cause, hmessage]
  split
  · exact .pure rfl
  · exact newExInfo_spots _ _

theorem rounds_spots {body body' : Option Nat → Run Flow}
    (h : ∀ env, Spots (Becomes id) SameSpot (body env) (body' env)) (parent : Option Nat)
    (names : List String) (first : List Value) (limit : Nat) (scope : Option Nat) :
    Spots (Becomes id) SameSpot (rounds .framed body parent names first limit scope)
      (rounds .framed body' parent names first limit scope) := by
  induction limit generalizing scope with
  | zero => exact .exhausted
  | succ limit ih =>
    refine (h scope).next fun answer => ?_
    cases answer with
    | value v => exact .pure rfl
    | again values => exact (scope_spots parent names (first ++ values)).next fun env => ih env

end Eval

theorem CatchClass.takes_sameSpot (c : CatchClass) {e e' : RuntimeError}
    (h : e.SameSpot e') :    c.takes e' = c.takes e := by
  unfold CatchClass.takes
  rw [h.cause]

theorem Flow.toValue_spots (span : Span) (answer : Flow) :
    Spots (Becomes id) SameSpot (answer.toValue .framed span)
      (answer.toValue .framed span.spot) := by
  cases answer with
  | value v => exact .pure rfl
  | again values => exact failAt_spots _ span

/-! ## Expressions -/

/-- An engine that does without offsets what it does with them. -/
structure Engine.Spots (E : Engine) : Prop where
  locals : E.locals = .framed
  call : Caller.Spots E.call E.call
  late : ∀ v args span, Act.Spots (Becomes id) SameSpot (E.late v args span)
    (E.late v (Form.spotsAll args) span.spot)
  assign : ∀ v x, Act.Spots (Becomes id) SameSpot (E.assign v x) (E.assign v x)
  cycle : ∀ entry, Act.Spots (Becomes id) SameSpot (E.cycle entry) (E.cycle entry)

section Expressions

set_option linter.unusedSectionVars false

variable {E : Engine} (hE : E.Spots)

include hE

/-- The value of an answer, where an expression stands that is no body's last one. -/
theorem Engine.Spots.toValue (span : Span) (answer : Flow) :
    Act.Spots (Becomes id) SameSpot (answer.toValue E.locals span)
      (answer.toValue E.locals span.spot) := by
  rw [hE.locals]
  exact answer.toValue_spots span

theorem Engine.Spots.scope (parent : Option Nat) (names : List String) (values : List Value) :
    Act.Spots (Becomes id) SameSpot (E.locals.scope parent names values)
      (E.locals.scope parent names values) := by
  rw [hE.locals]
  exact scope_spots parent names values

theorem Engine.Spots.bind (frame : Option Nat) (name : String) (v : Value) :
    Act.Spots (Becomes id) SameSpot (E.locals.bind frame name v)
      (E.locals.bind frame name v) := by
  rw [hE.locals]
  exact bind_spots frame name v

mutual

theorem Expr.flow_spots (e : Expr) (env : Option Nat) :
    Act.Spots (Becomes id) SameSpot (e.flow E env) (e.spots.flow E env) := by
  have hvalue : ∀ {a b : Run Value}, Act.Spots (Becomes id) SameSpot a b →
      Act.Spots (Becomes id) SameSpot (do return Flow.value (← a)) (do return Flow.value (← b)) :=
    fun h => h.bind_pure fun _ _ e => by rw [e]; rfl
  cases e with
  | literal v span | quote v span | theVar v span =>
    rw [Expr.spots, Expr.flow, Expr.flow]
    exact .pure rfl
  | localRef b span =>
    rw [Expr.spots, Expr.flow, Expr.flow, hE.locals]
    exact hvalue (readLocal_spots b span env)
  | varRef v span =>
    rw [Expr.spots, Expr.flow, Expr.flow]
    exact hvalue (deref_spots v span)
  | vector items span =>
    rw [Expr.spots, Expr.flow, Expr.flow]
    exact (valuesOnto_spots [] items env).bind_pure fun _ _ e => by rw [e]; rfl
  | set items span =>
    rw [Expr.spots, Expr.flow, Expr.flow]
    refine (valuesOnto_spots [] items env).next fun vs => ?_
    exact hvalue ((Act.Spots.blind (blind_setOf vs)).within span)
  | map items span =>
    rw [Expr.spots, Expr.flow, Expr.flow]
    refine (valuesOnto_spots [] items env).next fun vs => ?_
    exact hvalue ((Act.Spots.blind (blind_mapOf vs)).within span)
  | cond test yes no span =>
    rw [Expr.spots, Expr.flow, Expr.flow, Expr.span_spots]
    refine (test.flow_spots env).next fun answer => ?_
    refine (hE.toValue test.span answer).next fun v => ?_
    dsimp only [id]
    split
    · exact yes.flow_spots env
    · exact flowElse_spots no env
  | block body span =>
    rw [Expr.spots, Expr.flow, Expr.flow]
    exact flowBody_spots body env
  | letIn bindings body span =>
    rw [Expr.spots, Expr.flow, Expr.flow]
    refine (hE.scope env [] []).next fun inner => ?_
    refine (bindAll_spots bindings inner).next fun inner => ?_
    exact flowBody_spots body inner
  | loop bindings body span =>
    rw [Expr.spots, Expr.flow, Expr.flow, Expr.spotsBindings_names]
    refine (hE.scope env [] []).next fun inner => ?_
    refine (bindAll_spots bindings inner).next fun inner => ?_
    rw [hE.locals]
    exact hvalue (rounds_spots (fun env => flowBody_spots body env) _ _ _ _ _)
  | recur args span =>
    rw [Expr.spots, Expr.flow, Expr.flow]
    exact (valuesOnto_spots [] args env).bind_pure fun _ _ e => by rw [e]; rfl
  | fn f span =>
    rw [Expr.spots_fn, Expr.flow, Expr.flow]
    exact hvalue (makeFunction_spots f env)
  | define v value span =>
    cases value with
    | none =>
      rw [Expr.spots, spotsOption, Expr.flow, Expr.flow]
      exact .pure rfl
    | some value =>
      rw [Expr.spots, spotsOption, Expr.flow, Expr.flow, Expr.span_spots]
      refine (value.flow_spots env).next fun answer => ?_
      refine (hE.toValue value.span answer).next fun x => ?_
      exact (hE.assign v x).next fun _ => .pure rfl
  | setLocal b value span =>
    rw [Expr.spots, Expr.flow, Expr.flow, Expr.span_spots]
    refine (value.flow_spots env).next fun answer => ?_
    refine (hE.toValue value.span answer).next fun x => ?_
    rw [hE.locals]
    exact (writeLocal_spots b span env x).next fun _ => .pure rfl
  | setVar v value span =>
    rw [Expr.spots, Expr.flow, Expr.flow, Expr.span_spots]
    refine (value.flow_spots env).next fun answer => ?_
    refine (hE.toValue value.span answer).next fun x => ?_
    exact (hE.assign v x).next fun _ => .pure rfl
  | call callee args span =>
    rw [Expr.spots, Expr.flow, Expr.flow, Expr.span_spots]
    refine (callee.flow_spots env).next fun answer => ?_
    refine (hE.toValue callee.span answer).next fun f => ?_
    refine (valuesOnto_spots [] args env).next fun xs => ?_
    exact hvalue ((hE.call f xs).within span)
  | throw value span =>
    rw [Expr.spots, Expr.flow, Expr.flow, Expr.span_spots]
    refine (value.flow_spots env).next fun answer => ?_
    refine (hE.toValue value.span answer).next fun x => ?_
    exact hvalue (throwValue_spots x span)
  | attempt body catches finish span =>
    rw [Expr.spots, Expr.flow, Expr.flow]
    -- The fault that a clause takes may differ in offsets, the value it binds may not.
    refine Act.Spots.bind (V := Outcome (Becomes id) SameSpot) (Act.Spots.caught ?_)
      fun result result' hresult => ?_
    · refine Act.Spots.bind (bodyValue_spots .nil body env).caught fun r q h => ?_
      cases h with
      | ok h => exact .pure h
      | error h => exact handle_spots h catches env
    · refine (finishWith_spots finish env).next fun _ => ?_
      exact hvalue (.ofExcept hresult)
  | macroCall v args span =>
    rw [Expr.spots, Expr.flow, Expr.flow]
    exact hvalue (hE.late v args span)

theorem valuesOnto_spots (acc : List Value) (es : List Expr) (env : Option Nat) :
    Act.Spots (Becomes id) SameSpot (valuesOnto E acc es env)
      (valuesOnto E acc (spotsAll es) env) := by
  cases es with
  | nil => exact .pure rfl
  | cons e rest =>
    rw [spotsAll, valuesOnto, valuesOnto, Expr.span_spots]
    refine (e.flow_spots env).next fun answer => ?_
    refine (hE.toValue e.span answer).next fun v => ?_
    exact valuesOnto_spots (v :: acc) rest env

theorem flowBody_spots (es : List Expr) (env : Option Nat) :
    Act.Spots (Becomes id) SameSpot (flowBody E es env) (flowBody E (spotsAll es) env) := by
  cases es with
  | nil => exact .pure rfl
  | cons e rest =>
    have ih := flowBody_spots rest env
    cases rest with
    | nil => exact e.flow_spots env
    | cons e' rest =>
      simp only [spotsAll] at ih
      simp only [spotsAll, flowBody, Expr.span_spots]
      refine (e.flow_spots env).next fun answer => ?_
      exact (hE.toValue e.span answer).discard.next fun _ => ih

theorem bodyValue_spots (last : Value) (es : List Expr) (env : Option Nat) :
    Act.Spots (Becomes id) SameSpot (bodyValue E last es env)
      (bodyValue E last (spotsAll es) env) := by
  cases es with
  | nil => exact .pure rfl
  | cons e rest =>
    rw [spotsAll, bodyValue, bodyValue, Expr.span_spots]
    refine (e.flow_spots env).next fun answer => ?_
    refine (hE.toValue e.span answer).next fun v => ?_
    exact bodyValue_spots v rest env

theorem flowElse_spots (o : Option Expr) (env : Option Nat) :
    Act.Spots (Becomes id) SameSpot (flowElse E o env) (flowElse E (spotsOption o) env) := by
  cases o with
  | none => exact .pure rfl
  | some e => exact e.flow_spots env

theorem bindAll_spots (bs : List (Bound Expr)) (env : Option Nat) :
    Act.Spots (Becomes id) SameSpot (bindAll E bs env) (bindAll E (spotsBindings bs) env) := by
  match bs with
  | [] => exact .pure rfl
  | ⟨name, init⟩ :: rest =>
    rw [spotsBindings, bindAll, bindAll, Expr.span_spots]
    refine (init.flow_spots env).next fun answer => ?_
    refine (hE.toValue init.span answer).next fun v => ?_
    exact (hE.bind env name v).next fun inner => bindAll_spots rest inner

theorem handle_spots {e e' : RuntimeError} (h : e.SameSpot e') (cs : List (CatchClause Expr))
    (env : Option Nat) :
    Act.Spots (Becomes id) SameSpot (handle E e cs env) (handle E e' (spotsCatches cs) env) := by
  match cs with
  | [] => exact .raise h
  | ⟨cls, name, body⟩ :: rest =>
    rw [spotsCatches, handle, handle, cls.takes_sameSpot h]
    split
    · refine (caughtValue_spots h).next fun v => ?_
      refine (hE.scope env [name] [v]).next fun inner => ?_
      exact bodyValue_spots .nil body inner
    · exact handle_spots h rest env

theorem finishWith_spots (o : Option (List Expr)) (env : Option Nat) :
    Act.Spots (Becomes id) SameSpot (finishWith E o env) (finishWith E (spotsBody o) env) := by
  cases o with
  | none => exact .pure rfl
  | some body => exact (bodyValue_spots .nil body env).discard

end

theorem Expr.eval_spots (e : Expr) (env : Option Nat) :
    Act.Spots (Becomes id) SameSpot (e.eval E env) (e.spots.eval E env) := by
  unfold Expr.eval
  rw [Expr.span_spots]
  exact (e.flow_spots hE env).next fun answer => hE.toValue e.span answer

end Expressions

/-! ## Calls -/

theorem Eval.callFunction_spots {E : Engine} (hE : E.Spots) (i : Nat) (name : String)
    (args : List Value) :
    Act.Spots (Becomes id) SameSpot (callFunction E i name args) (callFunction E i name args) := by
  unfold callFunction
  have hfunction : Act.Spots (Becomes (Option.map Function.spots)) SameSpot
      (Act.askStore fun s => s.functions[i]? : Run (Option Function))
      (Act.askStore fun s => s.functions[i]?) := .ask fun s => Array.getElem?_map ..
  refine hfunction.next fun o => ?_
  cases o with
  | none => exact .raise rfl
  | some f =>
    have harity : (Function.spots f).literal.arityFor? args.length =
        (f.literal.arityFor? args.length).map Arity.spots := f.literal.arityFor?_spots args.length
    dsimp only [Option.map_some]
    rw [harity]
    cases f.literal.arityFor? args.length with
    | none => exact .raise rfl
    | some a =>
      refine (enter_spots f.literal.span).next fun _ => ?_
      refine Act.Spots.ending ?_ fun s => rfl
      refine (hE.scope _ _ _).next fun scope => ?_
      rw [hE.locals]
      exact rounds_spots (fun env => flowBody_spots hE a.body env) _ _ _ _ _

theorem Value.apply_spots {E : Engine} (hE : E.Spots) (f : Value) (args : List Value) :
    Act.Spots (Becomes id) SameSpot (f.apply E args) (f.apply E args) := by
  cases f with
  | fn i name => exact callFunction_spots hE i name args
  | closure i name => exact onParked_spots (executeBy_spots hE.cycle E.rounds i args)
  | native owner op => exact Native.call_spots hE.call op args
  | var v => exact (deref_spots v .unknown).next fun f => hE.call f args
  | keyword | map | set =>
    simp only [Value.apply]
    split <;> exact .blind (fun _ => rfl)
  | vector items =>
    simp only [Value.apply, callVector]
    split
    · split
      · exact .pure rfl
      · exact ofFault_spots _
    · exact .raise rfl
    · exact .raise rfl
  | _ => exact .raise rfl

/-! ## Engines -/

theorem State.prepared_spots (e : Expr) :
    Act.Spots (Becomes Expr.spots) SameSpot (State.prepared e : Run Expr)
      (State.prepared e.spots) := by
  intro s
  unfold State.prepared
  show Act.Spotted _ _ _ (if s.config.vmEnabled then _ else _)
  split
  · have hrun : (Expr.annotate e.spots).run [] =
        ((e.annotate.run []).1.spots, (e.annotate.run []).2) := by
      rw [Expr.annotate_spots]
      rfl
    rw [hrun]
    obtain ⟨e', lines⟩ := e.annotate.run []
    show Act.Spotted _ _ (.ok e' (if s.config.traced then _ else _))
      (.ok e'.spots (if s.config.traced then _ else _))
    split
    · exact .ok (s := { s with reports := lines ++ s.reports }) rfl
    · exact .ok rfl
  · exact .ok rfl

namespace Engine

theorem lateCall_spots {E : Engine} (hE : E.Spots) (v : Var) (args : List Form) (span : Span) :
    Act.Spots (Becomes id) SameSpot (E.lateCall v args span)
      (E.lateCall v (Form.spotsAll args) span.spot) := by
  unfold lateCall
  refine (deref_spots v span).next fun f => ?_
  refine (Macro.expandUser_spots hE.call f args span).next fun expansion => ?_
  have hparsed := (Expr.ofForm_spots hE.call expansion).mapFault
    (f := fun e : ParseError => (⟨.general e.message, span⟩ : RuntimeError))
    (g := fun e : ParseError => (⟨.general e.message, span.spot⟩ : RuntimeError))
    (Y := SameSpot) fun e e' h => by
      rw [h.parseMessage]
      exact .of_spot _ span
  refine hparsed.next fun e => ?_
  refine (Act.Spots.blind (.ask fun _ => rfl)).next fun mode => ?_
  dsimp only [id]
  split
  · exact e.eval_spots hE none
  · exact (State.prepared_spots e).next fun e => e.eval_spots hE none

theorem spots_ofFuel (level : Nat) : (ofFuel level).Spots := by
  induction level with
  | zero =>
    have hcall : Caller.Spots (ofFuel 0).call (ofFuel 0).call := fun _ _ => .exhausted
    exact ⟨rfl, hcall, fun _ _ _ => .exhausted, fun v x => .blind (.assign v x), step_spots hcall⟩
  | succ level ih =>
    have hcall : Caller.Spots (ofFuel (level + 1)).call (ofFuel (level + 1)).call :=
      Value.apply_spots ih
    exact ⟨rfl, hcall, lateCall_spots ih, fun v x => .blind (.assign v x), step_spots hcall⟩

end Engine

end TwinLisp
