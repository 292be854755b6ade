import TwinLisp.Proofs.Gensym.Calls

/-! Evaluation makes names by `gensym` alone: what an engine does has a journal, at every level.

* `Engine.Journaled`: an engine whose calls have journals.
* `Expr.journaled_flow`, `Expr.journaled_eval`: the answer and the value of an expression.
* `Value.journaled_apply`: the call of a value.
* `Engine.journaled_ofFuel`: the engine of every level. -/

namespace TwinLisp

open Act (Journaled Blind)
open Eval Machine

/-! ## Locals and functions -/

namespace Eval

theorem journaled_deref (v : Var) (span : Span) : Journaled (Run.deref v span) :=
  .silent fun _ => .deref v span

theorem journaled_scope (parent : Option Nat) (names : List String) (values : List Value) :
    Journaled (Locals.framed.scope parent names values) :=
  Journaled.after (fun _ => .onStore fun _ => rfl) fun _ => .pure _

theorem journaled_bind (frame : Option Nat) (name : String) (v : Value) :
    Journaled (Locals.framed.bind frame name v) := by
  cases frame with
  | none => exact .pure _
  | some id => exact Journaled.after (fun _ => .updateStore fun _ => rfl) fun _ => .pure _

theorem journaled_readLocal (b : Binding) (span : Span) (frame : Option Nat) :
    Journaled (readLocal b span frame) := by
  cases frame with
  | none => exact .raise _
  | some i =>
    refine Journaled.after (fun _ => .askStore fun _ => rfl) fun o => ?_
    cases o with
    | some v => exact .pure _
    | none => exact .raise _

theorem journaled_writeLocal (b : Binding) (span : Span) (frame : Option Nat) (v : Value) :
    Journaled (writeLocal b span frame v) := by
  cases frame with
  | none => exact .raise _
  | some i =>
    refine Journaled.after (fun _ => .askStore fun _ => rfl) fun o => ?_
    cases o with
    | some a => exact .silent fun _ => .updateStore fun _ => rfl
    | none => exact .raise _

theorem journaled_makeFunction (f : FnLiteral Expr) (frame : Option Nat) :
    Journaled (makeFunction f frame) := by
  unfold makeFunction
  split
  · exact Journaled.after (fun _ => .onStore fun _ => rfl) fun _ => .pure _
  · exact Journaled.after (fun _ => .onStore fun _ => rfl) fun _ => .pure _

theorem journaled_throwValue (v : Value) (span : Span) : Journaled (throwValue v span) := by
  unfold throwValue
  split
  · exact .raise _
  · exact .raise _

theorem journaled_caughtValue (e : RuntimeError) : Journaled (Run.caughtValue e) := by
  unfold Run.caughtValue
  split
  · exact .pure _
  · exact journaled_newExInfo _ _

theorem journaled_rounds {body : Option Nat → Run Flow} (h : ∀ env, Journaled (body env))
    (parent : Option Nat) (names : List String) (first : List Value) (limit : Nat)
    (scope : Option Nat) : Journaled (rounds .framed body parent names first limit scope) := by
  induction limit generalizing scope with
  | zero => exact .exhausted
  | succ limit ih =>
    refine (h scope).bind fun answer => ?_
    cases answer with
    | value v => exact .pure _
    | again values => exact (journaled_scope parent names (first ++ values)).bind fun env => ih env

end Eval

theorem Flow.journaled_toValue (span : Span) (answer : Flow) :
    Journaled (answer.toValue .framed span) := by
  cases answer with
  | value v => exact .pure _
  | again values => exact .raise _

/-! ## Expressions -/

structure Engine.Journaled (E : Engine) : Prop where
  locals : E.locals = .framed
  call : Caller.Journaled E.call
  late : ∀ v args span, Act.Journaled (E.late v args span)
  assign : ∀ v x, Act.Journaled (E.assign v x)
  cycle : ∀ entry, Act.Journaled (E.cycle entry)

section Expressions

set_option linter.unusedSectionVars false

variable {E : Engine} (hE : E.Journaled)

include hE

/-- The value of an answer, where an expression stands that is no body's last one. -/
theorem Engine.Journaled.toValue (span : Span) (answer : Flow) :
    Act.Journaled (answer.toValue E.locals span) := by
  rw [hE.locals]
  exact answer.journaled_toValue span

theorem Engine.Journaled.thenValue {e : Expr} {env : Option Nat} {α : Type} {k : Value → Run α}
    (h : Act.Journaled (e.flow E env)) (hk : ∀ v, Act.Journaled (k v)) :
    Act.Journaled (do k (← (← e.flow E env).toValue E.locals e.span)) :=
  h.bind fun answer => (hE.toValue e.span answer).bind hk

theorem Engine.Journaled.scope (parent : Option Nat) (names : List String) (values : List Value) :
    Act.Journaled (E.locals.scope parent names values) := by
  rw [hE.locals]
  exact journaled_scope parent names values

theorem Engine.Journaled.bind (frame : Option Nat) (name : String) (v : Value) :
    Act.Journaled (E.locals.bind frame name v) := by
  rw [hE.locals]
  exact journaled_bind frame name v

mutual

theorem Expr.journaled_flow (e : Expr) (env : Option Nat) : Act.Journaled (e.flow E env) := by
  have hvalue : ∀ {a : Run Value}, Act.Journaled a →
      Act.Journaled (do return Flow.value (← a) : Run Flow) := fun h => h.bind fun _ => .pure _
  cases e with
  | literal v span | quote v span | theVar v span =>
    rw [Expr.flow]
    exact .pure _
  | localRef b span =>
    rw [Expr.flow, hE.locals]
    exact hvalue (journaled_readLocal b span env)
  | varRef v span =>
    rw [Expr.flow]
    exact hvalue (journaled_deref v span)
  | vector items span =>
    rw [Expr.flow]
    exact (journaled_valuesOnto [] items env).bind fun _ => .pure _
  | set items span =>
    rw [Expr.flow]
    refine (journaled_valuesOnto [] items env).bind fun vs => ?_
    exact hvalue (Act.Journaled.within span (.silent fun _ => blind_setOf vs))
  | map items span =>
    rw [Expr.flow]
    refine (journaled_valuesOnto [] items env).bind fun vs => ?_
    exact hvalue (Act.Journaled.within span (.silent fun _ => blind_mapOf vs))
  | cond test yes no span =>
    rw [Expr.flow]
    refine hE.thenValue (test.journaled_flow env) fun v => ?_
    split
    · exact yes.journaled_flow env
    · exact journaled_flowElse no env
  | block body span =>
    rw [Expr.flow]
    exact journaled_flowBody body env
  | letIn bindings body span =>
    rw [Expr.flow]
    refine (hE.scope env [] []).bind fun inner => ?_
    refine (journaled_bindAll bindings inner).bind fun inner => ?_
    exact journaled_flowBody body inner
  | loop bindings body span =>
    rw [Expr.flow]
    refine (hE.scope env [] []).bind fun inner => ?_
    refine (journaled_bindAll bindings inner).bind fun inner => ?_
    rw [hE.locals]
    exact hvalue (journaled_rounds (fun env => journaled_flowBody body env) _ _ _ _ _)
  | recur args span =>
    rw [Expr.flow]
    exact (journaled_valuesOnto [] args env).bind fun _ => .pure _
  | fn f span =>
    rw [Expr.flow]
    exact hvalue (journaled_makeFunction f env)
  | define v value span =>
    cases value with
    | none =>
      rw [Expr.flow]
      exact .pure _
    | some value =>
      rw [Expr.flow]
      refine hE.thenValue (value.journaled_flow env) fun x => ?_
      exact (hE.assign v x).bind fun _ => .pure _
  | setLocal b value span =>
    rw [Expr.flow]
    refine hE.thenValue (value.journaled_flow env) fun x => ?_
    rw [hE.locals]
    exact (journaled_writeLocal b span env x).bind fun _ => .pure _
  | setVar v value span =>
    rw [Expr.flow]
    refine hE.thenValue (value.journaled_flow env) fun x => ?_
    exact (hE.assign v x).bind fun _ => .pure _
  | call callee args span =>
    rw [Expr.flow]
    refine hE.thenValue (callee.journaled_flow env) fun f => ?_
    refine (journaled_valuesOnto [] args env).bind fun xs => ?_
    exact hvalue ((hE.call f xs).within span)
  | throw value span =>
    rw [Expr.flow]
    refine hE.thenValue (value.journaled_flow env) fun x => ?_
    exact hvalue (journaled_throwValue x span)
  | attempt body catches finish span =>
    rw [Expr.flow]
    refine Act.Journaled.bind (Act.Journaled.caught ?_) fun result => ?_
    · refine (journaled_bodyValue .nil body env).caught.bind fun r => ?_
      cases r with
      | ok v => exact .pure _
      | error e => exact journaled_handle e catches env
    · refine (journaled_finishWith finish env).bind fun _ => ?_
      exact hvalue (.ofExcept result)
  | macroCall v args span =>
    rw [Expr.flow]
    exact hvalue (hE.late v args span)

theorem journaled_valuesOnto (acc : List Value) (es : List Expr) (env : Option Nat) :
    Act.Journaled (valuesOnto E acc es env) := by
  cases es with
  | nil => exact .pure _
  | cons e rest =>
    rw [valuesOnto]
    refine hE.thenValue (e.journaled_flow env) fun v => ?_
    exact journaled_valuesOnto (v :: acc) rest env

theorem journaled_flowBody (es : List Expr) (env : Option Nat) :
    Act.Journaled (flowBody E es env) := by
  cases es with
  | nil => exact .pure _
  | cons e rest =>
    have ih := journaled_flowBody rest env
    cases rest with
    | nil => exact e.journaled_flow env
    | cons e' rest =>
      simp only [flowBody]
      refine (e.journaled_flow env).bind fun answer => ?_
      exact (hE.toValue e.span answer).discard.bind fun _ => ih

theorem journaled_bodyValue (last : Value) (es : List Expr) (env : Option Nat) :
    Act.Journaled (bodyValue E last es env) := by
  cases es with
  | nil => exact .pure _
  | cons e rest =>
    rw [bodyValue]
    refine hE.thenValue (e.journaled_flow env) fun v => ?_
    exact journaled_bodyValue v rest env

theorem journaled_flowElse (o : Option Expr) (env : Option Nat) :
    Act.Journaled (flowElse E o env) := by
  cases o with
  | none => exact .pure _
  | some e => exact e.journaled_flow env

theorem journaled_bindAll (bs : List (Bound Expr)) (env : Option Nat) :
    Act.Journaled (bindAll E bs env) := by
  match bs with
  | [] => exact .pure _
  | ⟨name, init⟩ :: rest =>
    rw [bindAll]
    refine hE.thenValue (init.journaled_flow env) fun v => ?_
    exact (hE.bind env name v).bind fun inner => journaled_bindAll rest inner

theorem journaled_handle (e : RuntimeError) (cs : List (CatchClause Expr)) (env : Option Nat) :
    Act.Journaled (handle E e cs env) := by
  match cs with
  | [] => exact .raise _
  | ⟨cls, name, body⟩ :: rest =>
    rw [handle]
    split
    · refine (journaled_caughtValue e).bind fun v => ?_
      refine (hE.scope env [name] [v]).bind fun inner => ?_
      exact journaled_bodyValue .nil body inner
    · exact journaled_handle e rest env

theorem journaled_finishWith (o : Option (List Expr)) (env : Option Nat) :
    Act.Journaled (finishWith E o env) := by
  cases o with
  | none => exact .pure _
  | some body => exact (journaled_bodyValue .nil body env).discard

end

theorem Expr.journaled_eval (e : Expr) (env : Option Nat) : Act.Journaled (e.eval E env) := by
  unfold Expr.eval
  exact (e.journaled_flow hE env).bind fun answer => hE.toValue e.span answer

end Expressions

/-! ## Calls -/

section Calls

variable {E : Engine} (hE : E.Journaled)

include hE

theorem Eval.journaled_callFunction (i : Nat) (name : String) (args : List Value) :
    Journaled (callFunction E i name args) := by
  unfold callFunction
  refine Journaled.after (fun _ => .askStore fun _ => rfl) fun o => ?_
  cases o with
  | none => exact .raise _
  | some f =>
    dsimp only
    cases f.literal.arityFor? args.length with
    | none => exact .raise _
    | some a =>
      refine Journaled.after (fun _ => .enter _) fun _ => ?_
      refine Journaled.ending ?_ fun _ _ => rfl
      refine (hE.scope _ _ _).bind fun scope => ?_
      rw [hE.locals]
      exact journaled_rounds (fun env => journaled_flowBody hE a.body env) _ _ _ _ _

theorem Value.journaled_apply (f : Value) (args : List Value) : Journaled (f.apply E args) := by
  cases f with
  | fn i name => exact journaled_callFunction hE i name args
  | closure i name => exact journaled_onParked (journaled_executeBy hE.cycle E.rounds i args)
  | native owner op => exact Native.journaled_call hE.call op args
  | var v => exact (journaled_deref v .unknown).bind fun f => hE.call f args
  | keyword | map | set =>
    simp only [Value.apply]
    split <;> exact .silent fun _ _ => rfl
  | vector items =>
    simp only [Value.apply, callVector]
    split
    · split
      · exact .pure _
      · exact journaled_ofFault _
    · exact .raise _
    · exact .raise _
  | _ => exact .raise _

theorem Engine.journaled_lateCall (v : Var) (args : List Form) (span : Span) :
    Act.Journaled (E.lateCall v args span) := by
  unfold lateCall
  refine (journaled_deref v span).bind fun f => ?_
  refine (Macro.journaled_expandUser hE.call f args span).bind fun expansion => ?_
  refine ((Expr.journaled_ofForm hE.call expansion).mapFault _).bind fun e => ?_
  refine Act.Journaled.after (fun _ => .ask fun _ => rfl) fun mode => ?_
  split
  · exact e.journaled_eval hE none
  · exact Act.Journaled.after (fun _ => State.blind_prepared rfl e) fun e =>
      e.journaled_eval hE none

end Calls

theorem Engine.journaled_ofFuel (level : Nat) : (ofFuel level).Journaled := by
  induction level with
  | zero =>
    have hcall : Caller.Journaled (ofFuel 0).call := fun _ _ => .exhausted
    exact ⟨rfl, hcall, fun _ _ _ => .exhausted, fun v x => .silent fun _ => .assign v x,
      journaled_step hcall⟩
  | succ level ih =>
    have hcall : Caller.Journaled (ofFuel (level + 1)).call := Value.journaled_apply ih
    exact ⟨rfl, hcall, journaled_lateCall ih, fun v x => .silent fun _ => .assign v x,
      journaled_step hcall⟩

end TwinLisp
