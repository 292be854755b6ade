import TwinLisp.Bytecode.Eligible
import TwinLisp.Proofs.Form.Spots

/-! Programs up to byte offsets. Nothing in a program depends on the offsets of its places: bytecode
names lines, and the reports of the compiler lines and columns.

* `Expr.spots`, `FnLiteral.spots`: a program with lines and columns for its places.
* `Proto.ofExpr_spots`: its bytecode is the same, or the fault of the compiler up to offsets.
* `Expr.annotate_spots`: the same literals in it are compiled, with the same reports. -/

namespace TwinLisp

/-! ## Programs without offsets -/

namespace Expr

mutual

/-- The program with lines and columns for its places. -/
def spots : Expr → Expr
  | .literal v span => .literal v span.spot
  | .quote v span => .quote v span.spot
  | .vector items span => .vector (spotsAll items) span.spot
  | .map items span => .map (spotsAll items) span.spot
  | .set items span => .set (spotsAll items) span.spot
  | .localRef b span => .localRef b span.spot
  | .varRef v span => .varRef v span.spot
  | .theVar v span => .theVar v span.spot
  | .cond test yes no span => .cond test.spots yes.spots (spotsOption no) span.spot
  | .block body span => .block (spotsAll body) span.spot
  | .letIn bindings body span => .letIn (spotsBindings bindings) (spotsAll body) span.spot
  | .loop bindings body span => .loop (spotsBindings bindings) (spotsAll body) span.spot
  | .recur args span => .recur (spotsAll args) span.spot
  | .fn ⟨name, arities, fspan, compiled⟩ span =>
    .fn ⟨name, spotsArities arities, fspan.spot, compiled⟩ span.spot
  | .define v value span => .define v (spotsOption value) span.spot
  | .setLocal b value span => .setLocal b value.spots span.spot
  | .setVar v value span => .setVar v value.spots span.spot
  | .call callee args span => .call callee.spots (spotsAll args) span.spot
  | .throw value span => .throw value.spots span.spot
  | .attempt body catches finish span =>
    .attempt (spotsAll body) (spotsCatches catches) (spotsBody finish) span.spot
  | .macroCall v args span => .macroCall v (Form.spotsAll args) span.spot

def spotsAll : List Expr → List Expr
  | [] => []
  | e :: rest => e.spots :: spotsAll rest

def spotsOption : Option Expr → Option Expr
  | none => none
  | some e => some e.spots

def spotsBody : Option (List Expr) → Option (List Expr)
  | none => none
  | some body => some (spotsAll body)

def spotsBindings : List (Bound Expr) → List (Bound Expr)
  | [] => []
  | ⟨name, init⟩ :: rest => ⟨name, init.spots⟩ :: spotsBindings rest

def spotsArities : List (Arity Expr) → List (Arity Expr)
  | [] => []
  | ⟨params, variadic, body⟩ :: rest => ⟨params, variadic, spotsAll body⟩ :: spotsArities rest

def spotsCatches : List (CatchClause Expr) → List (CatchClause Expr)
  | [] => []
  | ⟨cls, name, body⟩ :: rest => ⟨cls, name, spotsAll body⟩ :: spotsCatches rest

end

@[simp] theorem span_spots (e : Expr) : e.spots.span = e.span.spot := by
  cases e <;> rw [spots] <;> rfl

theorem spotsAll_eq_map (es : List Expr) : spotsAll es = es.map spots := by
  induction es with
  | nil => rfl
  | cons e rest ih => rw [spotsAll, ih, List.map_cons]

@[simp] theorem length_spotsAll (es : List Expr) : (spotsAll es).length = es.length := by
  rw [spotsAll_eq_map, List.length_map]

theorem spotsAll_reverse (es : List Expr) : spotsAll es.reverse = (spotsAll es).reverse := by
  rw [spotsAll_eq_map, spotsAll_eq_map, List.map_reverse]

theorem spotsBindings_eq_map (bs : List (Bound Expr)) :
    spotsBindings bs = bs.map fun b => ⟨b.name, b.init.spots⟩ := by
  induction bs with
  | nil => rfl
  | cons b rest ih => rw [spotsBindings, ih, List.map_cons]

@[simp] theorem length_spotsBindings (bs : List (Bound Expr)) :
    (spotsBindings bs).length = bs.length := by
  rw [spotsBindings_eq_map, List.length_map]

theorem spotsBindings_reverse (bs : List (Bound Expr)) :
    spotsBindings bs.reverse = (spotsBindings bs).reverse := by
  rw [spotsBindings_eq_map, spotsBindings_eq_map, List.map_reverse]

theorem spotsBindings_names (bs : List (Bound Expr)) :
    (spotsBindings bs).map Bound.name = bs.map Bound.name := by
  rw [spotsBindings_eq_map, List.map_map]
  rfl

theorem spotsCatches_append (cs ds : List (CatchClause Expr)) :
    spotsCatches (cs ++ ds) = spotsCatches cs ++ spotsCatches ds := by
  induction cs with
  | nil => rfl
  | cons c rest ih => rw [List.cons_append, spotsCatches, spotsCatches, ih, List.cons_append]

theorem spotsCatches_reverse (cs : List (CatchClause Expr)) :
    spotsCatches cs.reverse = (spotsCatches cs).reverse := by
  induction cs with
  | nil => rfl
  | cons c rest ih =>
    obtain ⟨cls, name, body⟩ := c
    rw [List.reverse_cons, spotsCatches_append, ih]
    simp only [spotsCatches, List.reverse_cons]

end Expr

open TwinLisp.Expr (spotsAll spotsOption spotsBody spotsBindings spotsArities spotsCatches)

def Arity.spots (a : Arity Expr) : Arity Expr := ⟨a.params, a.variadic, spotsAll a.body⟩

/-- The literal with lines and columns for its places. -/
def FnLiteral.spots (f : FnLiteral Expr) : FnLiteral Expr :=
  ⟨f.name, spotsArities f.arities, f.span.spot, f.compiled⟩

theorem Expr.spots_fn (f : FnLiteral Expr) (span : Span) :
    (Expr.fn f span).spots = .fn f.spots span.spot := by
  rw [Expr.spots, FnLiteral.spots]

theorem Expr.spotsArities_eq_map (as : List (Arity Expr)) :
    spotsArities as = as.map Arity.spots := by
  induction as with
  | nil => rfl
  | cons a rest ih => rw [spotsArities, ih, List.map_cons, Arity.spots]

theorem Expr.spotsArities_reverse (as : List (Arity Expr)) :
    spotsArities as.reverse = (spotsArities as).reverse := by
  rw [spotsArities_eq_map, spotsArities_eq_map, List.map_reverse]

theorem FnLiteral.arityFor?_spots (f : FnLiteral Expr) (count : Nat) :
    f.spots.arityFor? count = (f.arityFor? count).map Arity.spots := by
  unfold arityFor?
  rw [spots, Expr.spotsArities_eq_map, List.find?_map, List.find?_map]
  simp only [Function.comp_def, Arity.spots]
  cases f.arities.find? fun a => !a.variadic && a.params.length == count <;> rfl

/-! ## Bytecode -/

namespace Build

variable {α β : Type}

/-- A step whose fault has a line and a column for its place. -/
def spot (a : Build α) : Build α := fun b => (a b).mapError Located.spot

theorem spot_bind (a : Build α) (f : α → Build β) :
    spot (a >>= f) = spot a >>= fun x => spot (f x) := by
  funext b
  show ((a b).bind fun p => f p.1 p.2).mapError Located.spot =
    ((a b).mapError Located.spot).bind fun p => spot (f p.1) p.2
  cases a b <;> rfl

theorem spot_ite {c : Prop} [Decidable c] (a b : Build α) :
    spot (if c then a else b) = if c then spot a else spot b := by
  split <;> rfl

theorem spot_leavingOne (a : Build Unit) : spot (leavingOne a) = leavingOne (spot a) := by
  simp only [leavingOne, spot_bind]
  rfl

theorem spot_onLevel? (f g : Level → Except CompileError Level)
    (h : ∀ l, g l = (f l).mapError Located.spot) : onLevel? g = spot (onLevel? f) := by
  funext ⟨level, enclosing⟩
  simp only [onLevel?, spot, h]
  cases f level <;> rfl

theorem spot_run' (a : Build α) (b : Builder) :
    (spot a).run' b = (a.run' b).mapError Located.spot := by
  show Prod.fst <$> (a b).mapError Located.spot = (Prod.fst <$> a b).mapError Located.spot
  cases a b <;> rfl

theorem spot_onLevel (f : Level → Level) : spot (onLevel f) = onLevel f := rfl

theorem spot_ask (f : Level → α) : spot (ask f) = ask f := rfl

theorem spot_enter (name selfName : String) :
    spot (enter name selfName) = enter name selfName := rfl

theorem spot_leave : spot leave = leave := by
  funext ⟨level, enclosing⟩
  cases enclosing <;> rfl

theorem spot_fail {α : Type} (cause : CompileFault) (span : Span) :
    (fail cause span.spot : Build α) = spot (fail cause span) := rfl

theorem op_spot (o : Opcode) (span : Span) : op o span.spot = spot (op o span) := rfl

theorem byte_spot (x : UInt8) (span : Span) : byte x span.spot = spot (byte x span) := rfl

theorem opByte_spot (o : Opcode) (x : UInt8) (span : Span) :
    opByte o x span.spot = spot (opByte o x span) := rfl

theorem opWord_spot (o : Opcode) (n : Nat) (span : Span) :
    opWord o n span.spot = spot (opWord o n span) := rfl

theorem jump_spot (o : Opcode) (span : Span) : jump o span.spot = spot (jump o span) := rfl

theorem opConstant_spot (o : Opcode) (v : Value) (span : Span) :
    opConstant o v span.spot = spot (opConstant o v span) := by
  refine spot_onLevel? _ _ fun l => ?_
  have hline : span.spot.line = span.line := rfl
  unfold Chunk.addConstant
  rw [hline]
  by_cases hfull : l.chunk.constants.size ≥ Chunk.maxConstants
  · simp only [if_pos hfull]
    rfl
  · simp only [if_neg hfull]
    rfl

theorem spot_land (placeholder : Nat) : land placeholder = spot (land placeholder) := by
  refine spot_onLevel? _ _ fun l => ?_
  unfold Chunk.patchJump
  dsimp only
  split
  · rename_i e he
    split at he
    · cases he
    · cases he
      rfl
  · rfl

theorem loopTo_spot (start : Nat) (span : Span) :
    loopTo start span.spot = spot (loopTo start span) := by
  refine spot_onLevel? _ _ fun l => ?_
  have hline : span.spot.line = span.line := rfl
  unfold Chunk.emitLoop
  rw [hline]
  dsimp only
  split
  · rename_i e _ he
    split at he
    · cases he
    · cases he
      rfl
  · rfl

theorem closeScope_spot (span : Span) : closeScope span.spot = spot (closeScope span) := by
  refine spot_onLevel? _ _ fun l => ?_
  have hline : span.spot.line = span.line := rfl
  unfold Level.closeScope
  rw [hline]
  dsimp only
  split
  · rfl
  · split <;> rfl

theorem declare_spot (name : String) (span : Span) :
    declare name span.spot = spot (declare name span) := by
  refine spot_onLevel? _ _ fun l => ?_
  unfold Level.declare
  dsimp only
  split <;> rfl

theorem capture_spot (c : Capture) (span : Span) (l : Level) :
    l.capture c span.spot = (l.capture c span).mapError Located.spot := by
  unfold Level.capture
  split
  · rfl
  · split <;> rfl

theorem captureFrom_spot (name : String) (span : Span) (ls : List Level) :
    Builder.captureFrom name span.spot ls =
      (Builder.captureFrom name span ls).mapError Located.spot := by
  induction ls with
  | nil => rfl
  | cons l outer ih =>
    unfold Builder.captureFrom
    split
    · rfl
    · rw [ih]
      rcases Builder.captureFrom name span outer with e | ⟨_ | c, outer⟩
      · rfl
      · rfl
      · simp only [Except.mapError, capture_spot]
        cases l.capture c span <;> rfl

theorem access_spot (name : String) (span : Span) :
    access name span.spot = spot (access name span) := by
  funext b
  simp only [access, Builder.access, spot]
  split
  · rfl
  · rw [captureFrom_spot]
    rcases Builder.captureFrom name span b.enclosing with e | ⟨_ | c, outer⟩
    · rfl
    · rfl
    · simp only [Except.mapError, capture_spot]
      cases b.level.capture c span <;> rfl

theorem declareParams_spot (span : Span) (names : List String) :
    declareParams span.spot names = spot (declareParams span names) := by
  induction names with
  | nil => rfl
  | cons name rest ih =>
    simp only [declareParams, spot_bind, spot_onLevel, declare_spot, ih]

theorem writeCaptures_spot (span : Span) (cs : List Capture) :
    writeCaptures span.spot cs = spot (writeCaptures span cs) := by
  induction cs with
  | nil => rfl
  | cons c rest ih => simp only [writeCaptures, spot_bind, byte_spot, ih]

theorem closure_spot (p : Proto) (span : Span) : closure p span.spot = spot (closure p span) := by
  simp only [closure, spot_bind, spot_ite, spot_onLevel, spot_fail, opWord_spot, writeCaptures_spot]
  rfl

theorem collect_spot (o : Opcode) (count : Nat) (span : Span) :
    collect o count span.spot = spot (collect o count span) := by
  simp only [collect, spot_ite, spot_fail, opWord_spot]

theorem call_spot (count : Nat) (span : Span) : call count span.spot = spot (call count span) := by
  simp only [call, spot_ite, spot_fail, opByte_spot]

theorem literal_spot (v : Value) (span : Span) :
    literal v span.spot = spot (literal v span) := by
  unfold literal
  split
  · rfl
  · rfl
  · rfl
  · exact opConstant_spot _ _ _

theorem recurTarget_spot (count : Nat) (span : Span) :
    recurTarget count span.spot = spot (recurTarget count span) := by
  simp only [recurTarget, spot_bind, spot_ask]
  congr 1
  funext t
  cases t with
  | none => rfl
  | some t => simp only [spot_ite, spot_fail]; rfl

theorem recurTo_spot (t : RecurTarget) (count : Nat) (span : Span) :
    recurTo t count span.spot = spot (recurTo t count span) := by
  simp only [recurTo, spot_bind, opByte_spot, byte_spot, loopTo_spot]

theorem parameters_spot (params : List String) (span : Span) :
    parameters params span.spot = spot (parameters params span) := by
  simp only [parameters, setArity, setTarget, spot_bind, spot_ite, spot_fail, spot_onLevel,
    declareParams_spot]

theorem readLocal_spot (b : Binding) (span : Span) :
    readLocal byName b span.spot = spot (readLocal byName b span) := by
  simp only [readLocal, byName, spot_bind, access_spot]
  congr 1
  funext a
  cases a <;> rfl

theorem writeLocal_spot (b : Binding) (span : Span) :
    writeLocal byName b span.spot = spot (writeLocal byName b span) := by
  simp only [writeLocal, byName, spot_bind, access_spot]
  congr 1
  funext a
  cases a <;> rfl

end Build

open Build

namespace Expr

theorem intrinsic?_spots (callee : Expr) (count : Nat) :
    intrinsic? callee.spots count = intrinsic? callee count := by
  cases callee <;> rw [Expr.spots] <;> rfl

mutual

theorem compile_spots (e : Expr) : e.spots.compile byName = spot (e.compile byName) := by
  cases e with
  | literal v span | quote v span =>
    rw [spots, compile, compile, literal_spot, spot_leavingOne]
  | vector items span | set items span | map items span =>
    simp only [spots, compile, spot_leavingOne, spot_bind, compileAll_spots items, collect_spot,
      length_spotsAll]
  | localRef b span => rw [spots, compile, compile, readLocal_spot, spot_leavingOne]
  | varRef v span | theVar v span =>
    rw [spots, compile, compile, opConstant_spot, spot_leavingOne]
  | cond test yes no span =>
    simp only [spots, compile, spot_leavingOne, spot_bind, test.compile_spots, yes.compile_spots,
      compileElse_spots no, jump_spot, ← spot_land]
    rfl
  | block body span =>
    rw [spots, compile, compile, compileBody_spots body, spot_leavingOne]
  | letIn bindings body span =>
    simp only [spots, compile, spot_leavingOne, spot_bind, compileBindings_spots bindings,
      compileBody_spots body, closeScope_spot]
    rfl
  | loop bindings body span =>
    simp only [spots, compile, spot_leavingOne, spot_bind, compileBindings_spots bindings,
      compileBody_spots body, closeScope_spot, length_spotsBindings]
    rfl
  | recur args span =>
    simp only [spots, compile, spot_leavingOne, spot_bind, compileAll_spots args, recurTarget_spot,
      recurTo_spot, length_spotsAll]
  | fn f span =>
    obtain ⟨name, arities, fspan, compiled⟩ := f
    simp only [spots, compile, spot_leavingOne, spot_bind, compileArities_spots arities,
      closure_spot, spot_enter, spot_leave]
  | define v value span =>
    cases value with
    | none => rw [spots, spotsOption, compile, compile, opConstant_spot, spot_leavingOne]
    | some value =>
      simp only [spots, spotsOption, compile, spot_leavingOne, spot_bind, value.compile_spots,
        opConstant_spot, op_spot]
      rfl
  | setLocal b value span =>
    simp only [spots, compile, spot_leavingOne, spot_bind, value.compile_spots, writeLocal_spot]
  | setVar v value span =>
    simp only [spots, compile, spot_leavingOne, spot_bind, value.compile_spots, opConstant_spot]
  | call callee args span =>
    simp only [spots, compile, spot_leavingOne, intrinsic?_spots, length_spotsAll]
    cases intrinsic? callee args.length with
    | some o => simp only [spot_bind, compileAll_spots args, op_spot]
    | none =>
      simp only [spot_bind, callee.compile_spots, compileAll_spots args, call_spot]
  | throw | attempt | macroCall =>
    rw [spots, compile, compile]
    rfl

theorem compileAll_spots (es : List Expr) :
    compileAll byName (spotsAll es) = spot (compileAll byName es) := by
  cases es with
  | nil => rfl
  | cons e rest =>
    simp only [spotsAll, compileAll, spot_bind, e.compile_spots, compileAll_spots rest]

theorem compileBody_spots (es : List Expr) (span : Span) :
    compileBody byName span.spot (spotsAll es) = spot (compileBody byName span es) := by
  cases es with
  | nil => rfl
  | cons e rest =>
    have ih := compileBody_spots rest span
    cases rest with
    | nil => simp only [spotsAll, compileBody, e.compile_spots]
    | cons e' rest =>
      rw [spotsAll] at ih
      simp only [spotsAll, compileBody, spot_bind, e.compile_spots, Expr.span_spots, op_spot, ih]
      rfl

theorem compileBindings_spots (bs : List (Bound Expr)) :
    compileBindings byName (spotsBindings bs) = spot (compileBindings byName bs) := by
  match bs with
  | [] => rfl
  | ⟨name, init⟩ :: rest =>
    simp only [spotsBindings, compileBindings, spot_bind, init.compile_spots, Expr.span_spots,
      declare_spot, compileBindings_spots rest]

theorem compileElse_spots (no : Option Expr) {span : Span} :
    compileElse byName span.spot (spotsOption no) = spot (compileElse byName span no) := by
  cases no with
  | none => rfl
  | some e => simp only [spotsOption, compileElse, e.compile_spots]

theorem compileArities_spots (as : List (Arity Expr)) {span : Span} :
    compileArities byName span.spot (spotsArities as) = spot (compileArities byName span as) := by
  match as with
  | [] | [⟨_, true, _⟩] => rfl
  | ⟨_, variadic, _⟩ :: _ :: _ => cases variadic <;> rfl
  | [⟨params, false, body⟩] =>
    simp only [spotsArities, compileArities, spot_bind, parameters_spot, compileBody_spots body,
      op_spot]

end

end Expr

namespace Proto

theorem ofExpr_spots (name : String) (e : Expr) :
    ofExpr name e.spots = (ofExpr name e).mapError Located.spot := by
  simp only [ofExpr, ofExprBy, e.compile_spots, Expr.span_spots, op_spot, ← spot_run', spot_bind,
    spot_ask]

theorem ofFn_spots (f : FnLiteral Expr) :
    ofFn f.spots = (ofFn f).mapError Located.spot := by
  simp only [ofFn, ofFnBy, FnLiteral.spots, Expr.compileArities_spots, ← spot_run', spot_bind,
    spot_ask, FnLiteral.displayName]

end Proto

/-! ## The compiled subset -/

namespace Expr

mutual

theorem compilable_spots (e : Expr) : e.spots.compilable = e.compilable := by
  cases e with
  | vector items | map items | set items | block items | recur items =>
    rw [spots, compilable, compilable, allCompilable_spots items]
  | cond test yes no =>
    rw [spots, compilable, compilable, test.compilable_spots, yes.compilable_spots,
      noneOrCompilable_spots no]
  | letIn bindings body | loop bindings body =>
    rw [spots, compilable, compilable, bindingsCompilable_spots bindings, allCompilable_spots body]
  | fn f => rw [spots, compilable, compilable, aritiesCompilable_spots f.arities]
  | define v value => rw [spots, compilable, compilable, noneOrCompilable_spots value]
  | setLocal b value | setVar v value =>
    rw [spots, compilable, compilable, value.compilable_spots]
  | call callee args =>
    rw [spots, compilable, compilable, callee.compilable_spots, allCompilable_spots args]
  | _ => rw [spots]; rfl

theorem allCompilable_spots (es : List Expr) : allCompilable (spotsAll es) = allCompilable es := by
  cases es with
  | nil => rfl
  | cons e rest =>
    rw [spotsAll, allCompilable, allCompilable, e.compilable_spots, allCompilable_spots rest]

theorem noneOrCompilable_spots (o : Option Expr) :
    noneOrCompilable (spotsOption o) = noneOrCompilable o := by
  cases o with
  | none => rfl
  | some e => rw [spotsOption, noneOrCompilable, noneOrCompilable, e.compilable_spots]

theorem bindingsCompilable_spots (bs : List (Bound Expr)) :
    bindingsCompilable (spotsBindings bs) = bindingsCompilable bs := by
  match bs with
  | [] => rfl
  | ⟨name, init⟩ :: rest =>
    rw [spotsBindings, bindingsCompilable, bindingsCompilable, init.compilable_spots,
      bindingsCompilable_spots rest]

theorem aritiesCompilable_spots (as : List (Arity Expr)) :
    aritiesCompilable (spotsArities as) = aritiesCompilable as := by
  match as with
  | [] | _ :: _ :: _ => rfl
  | [⟨_, variadic, body⟩] =>
    simp only [spotsArities, aritiesCompilable, allCompilable_spots body]

end

end Expr

theorem FnLiteral.bytecode?_spots (f : FnLiteral Expr) : f.spots.bytecode? = f.bytecode? := by
  have hcompilable : f.spots.compilable = f.compilable := Expr.aritiesCompilable_spots f.arities
  simp only [bytecode?, hcompilable, Proto.ofFn_spots]
  cases Proto.ofFn f <;> rfl

namespace Expr

mutual

theorem annotate_spots (e : Expr) : e.spots.annotate = spots <$> e.annotate := by
  cases e with
  | vector items | map items | set items | block items | recur items =>
    have h := annotateOnto_spots [] items
    rw [spotsAll] at h
    simp only [spots, annotate, h, bind_map_left, map_bind, map_pure]
  | cond test yes no =>
    simp only [spots, annotate, test.annotate_spots, yes.annotate_spots, annotateOption_spots no,
      bind_map_left, map_bind, map_pure]
  | letIn bindings body | loop bindings body =>
    have h := annotateOnto_spots [] body
    rw [spotsAll] at h
    simp only [spots, annotate, annotateBindings_spots bindings, h, bind_map_left, map_bind,
      map_pure]
  | fn f span =>
    have h := FnLiteral.bytecode?_spots f
    obtain ⟨name, arities, fspan, compiled⟩ := f
    rw [FnLiteral.spots] at h
    simp only [spots, annotate, h, map_bind]
    congr 1
    funext o
    cases o with
    | some p => rw [map_pure, spots]
    | none => simp only [annotateArities_spots arities, bind_map_left, map_bind, map_pure, spots]
  | define v value =>
    simp only [spots, annotate, annotateOption_spots value, bind_map_left, map_bind, map_pure]
  | setLocal b value | setVar v value | throw value =>
    simp only [spots, annotate, value.annotate_spots, bind_map_left, map_bind, map_pure]
  | call callee args =>
    have h := annotateOnto_spots [] args
    rw [spotsAll] at h
    simp only [spots, annotate, callee.annotate_spots, h, bind_map_left, map_bind, map_pure]
  | attempt body catches finish =>
    have h := annotateOnto_spots [] body
    rw [spotsAll] at h
    simp only [spots, annotate, h, annotateCatches_spots catches, annotateBody_spots finish,
      bind_map_left, map_bind, map_pure]
  | _ => simp only [spots, annotate, map_pure]

theorem annotateOnto_spots (acc es : List Expr) :
    annotateOnto (spotsAll acc) (spotsAll es) = spotsAll <$> annotateOnto acc es := by
  match es with
  | [] => rw [spotsAll, annotateOnto, annotateOnto, map_pure, spotsAll_reverse]
  | e :: rest =>
    have h := fun e' : Expr => annotateOnto_spots (e' :: acc) rest
    simp only [spotsAll] at h
    simp only [spotsAll, annotateOnto, e.annotate_spots, bind_map_left, map_bind, h]

theorem annotateOption_spots (o : Option Expr) :
    annotateOption (spotsOption o) = spotsOption <$> annotateOption o := by
  cases o with
  | none => rfl
  | some e =>
    simp only [spotsOption, annotateOption, e.annotate_spots, bind_map_left, map_bind, map_pure]

theorem annotateBody_spots (o : Option (List Expr)) :
    annotateBody (spotsBody o) = spotsBody <$> annotateBody o := by
  cases o with
  | none => rfl
  | some body =>
    have h := annotateOnto_spots [] body
    rw [spotsAll] at h
    simp only [spotsBody, annotateBody, h, bind_map_left, map_bind, map_pure]

theorem annotateBindings_spots (bs : List (Bound Expr)) :
    annotateBindings (spotsBindings bs) = spotsBindings <$> annotateBindings bs := by
  match bs with
  | [] => rfl
  | ⟨name, init⟩ :: rest =>
    simp only [spotsBindings, annotateBindings, init.annotate_spots, annotateBindings_spots rest,
      bind_map_left, map_bind, map_pure]

theorem annotateArities_spots (as : List (Arity Expr)) :
    annotateArities (spotsArities as) = spotsArities <$> annotateArities as := by
  match as with
  | [] => rfl
  | ⟨params, variadic, body⟩ :: rest =>
    have h := annotateOnto_spots [] body
    rw [spotsAll] at h
    simp only [spotsArities, annotateArities, h, annotateArities_spots rest, bind_map_left,
      map_bind, map_pure]

theorem annotateCatches_spots (cs : List (CatchClause Expr)) :
    annotateCatches (spotsCatches cs) = spotsCatches <$> annotateCatches cs := by
  match cs with
  | [] => rfl
  | ⟨cls, name, body⟩ :: rest =>
    have h := annotateOnto_spots [] body
    rw [spotsAll] at h
    simp only [spotsCatches, annotateCatches, h, annotateCatches_spots rest, bind_map_left,
      map_bind, map_pure]

end

end Expr

end TwinLisp
