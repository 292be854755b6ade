import TwinLisp.Expr.Basic

/-! Changing the bytecode that is stored beside the function literals of a program.

* `Expr.mapBytecode`: applies a function to the bytecode of every literal.
* `Expr.mapBytecode_id`, `FnLiteral.arityFor?_mapBytecode`: what it keeps. -/

namespace TwinLisp

mutual

/-- Applies a function to the bytecode of every literal. -/
def Expr.mapBytecode (g : Option Proto → Option Proto) : Expr → Expr
  | .literal v span => .literal v span
  | .quote v span => .quote v span
  | .vector items span => .vector (mapBytecodeAll g items) span
  | .map items span => .map (mapBytecodeAll g items) span
  | .set items span => .set (mapBytecodeAll g items) span
  | .localRef b span => .localRef b span
  | .varRef v span => .varRef v span
  | .theVar v span => .theVar v span
  | .cond test yes no span =>
    .cond (test.mapBytecode g) (yes.mapBytecode g) (mapBytecodeOption g no) span
  | .block body span => .block (mapBytecodeAll g body) span
  | .letIn bindings body span =>
    .letIn (mapBytecodeBindings g bindings) (mapBytecodeAll g body) span
  | .loop bindings body span =>
    .loop (mapBytecodeBindings g bindings) (mapBytecodeAll g body) span
  | .recur args span => .recur (mapBytecodeAll g args) span
  | .fn ⟨name, arities, fspan, compiled⟩ span =>
    .fn ⟨name, mapBytecodeArities g arities, fspan, g compiled⟩ span
  | .define v value span => .define v (mapBytecodeOption g value) span
  | .setLocal b value span => .setLocal b (value.mapBytecode g) span
  | .setVar v value span => .setVar v (value.mapBytecode g) span
  | .call callee args span => .call (callee.mapBytecode g) (mapBytecodeAll g args) span
  | .throw value span => .throw (value.mapBytecode g) span
  | .attempt body catches finish span =>
    .attempt (mapBytecodeAll g body) (mapBytecodeCatches g catches) (mapBytecodeBody g finish) span
  | .macroCall v args span => .macroCall v args span

def mapBytecodeAll (g : Option Proto → Option Proto) : List Expr → List Expr
  | [] => []
  | e :: rest => e.mapBytecode g :: mapBytecodeAll g rest

def mapBytecodeOption (g : Option Proto → Option Proto) : Option Expr → Option Expr
  | none => none
  | some e => some (e.mapBytecode g)

def mapBytecodeBody (g : Option Proto → Option Proto) : Option (List Expr) → Option (List Expr)
  | none => none
  | some body => some (mapBytecodeAll g body)

def mapBytecodeBindings (g : Option Proto → Option Proto) : List (Bound Expr) → List (Bound Expr)
  | [] => []
  | ⟨name, init⟩ :: rest => ⟨name, init.mapBytecode g⟩ :: mapBytecodeBindings g rest

def mapBytecodeArities (g : Option Proto → Option Proto) : List (Arity Expr) → List (Arity Expr)
  | [] => []
  | ⟨params, variadic, body⟩ :: rest =>
    ⟨params, variadic, mapBytecodeAll g body⟩ :: mapBytecodeArities g rest

def mapBytecodeCatches (g : Option Proto → Option Proto) :
    List (CatchClause Expr) → List (CatchClause Expr)
  | [] => []
  | ⟨cls, name, body⟩ :: rest => ⟨cls, name, mapBytecodeAll g body⟩ :: mapBytecodeCatches g rest

end

/-- The literal with other bytecode, also inside its bodies. -/
def FnLiteral.mapBytecode (g : Option Proto → Option Proto) (f : FnLiteral Expr) :
    FnLiteral Expr := ⟨f.name, mapBytecodeArities g f.arities, f.span, g f.compiled⟩

def Arity.mapBytecode (g : Option Proto → Option Proto) (a : Arity Expr) : Arity Expr :=
  ⟨a.params, a.variadic, mapBytecodeAll g a.body⟩

variable (g : Option Proto → Option Proto)

theorem Expr.mapBytecode_fn (f : FnLiteral Expr) (span : Span) :
    (Expr.fn f span).mapBytecode g = .fn (f.mapBytecode g) span := by
  rw [Expr.mapBytecode, FnLiteral.mapBytecode]

@[simp] theorem Expr.span_mapBytecode (e : Expr) : (e.mapBytecode g).span = e.span := by
  cases e <;> rw [Expr.mapBytecode] <;> rfl

theorem mapBytecodeAll_append (es fs : List Expr) :
    mapBytecodeAll g (es ++ fs) = mapBytecodeAll g es ++ mapBytecodeAll g fs := by
  induction es with
  | nil => rfl
  | cons e rest ih => rw [List.cons_append, mapBytecodeAll, mapBytecodeAll, ih, List.cons_append]

theorem mapBytecodeAll_reverse_cons (e : Expr)
    (acc : List Expr) : mapBytecodeAll g (e :: acc).reverse =
      mapBytecodeAll g acc.reverse ++ [e.mapBytecode g] := by
  rw [List.reverse_cons, mapBytecodeAll_append]
  rfl

theorem mapBytecodeArities_eq_map (as : List (Arity Expr)) :
    mapBytecodeArities g as = as.map (Arity.mapBytecode g) := by
  induction as with
  | nil => rfl
  | cons a rest ih => rw [mapBytecodeArities, List.map_cons, ih, Arity.mapBytecode]

theorem FnLiteral.arityFor?_mapBytecode (f : FnLiteral Expr) (count : Nat) :
    (f.mapBytecode g).arityFor? count = (f.arityFor? count).map (Arity.mapBytecode g) := by
  unfold FnLiteral.arityFor?
  rw [FnLiteral.mapBytecode, mapBytecodeArities_eq_map, List.find?_map, List.find?_map]
  simp only [Function.comp_def, Arity.mapBytecode]
  cases f.arities.find? fun a => !a.variadic && a.params.length == count <;> rfl

theorem FnLiteral.mem_of_arityFor? {f : FnLiteral Expr} {count : Nat} {a : Arity Expr}
    (h : f.arityFor? count = some a) : a ∈ f.arities := by
  unfold FnLiteral.arityFor? at h
  split at h
  · rename_i h'
    cases h
    exact List.mem_of_find?_eq_some h'
  · exact List.mem_of_find?_eq_some h

theorem mapBytecodeBindings_names (g : Option Proto → Option Proto) (bs : List (Bound Expr)) :
    (mapBytecodeBindings g bs).map Bound.name = bs.map Bound.name := by
  induction bs with
  | nil => rfl
  | cons b rest ih =>
    rw [mapBytecodeBindings, List.map_cons, List.map_cons, ih]

mutual

theorem Expr.mapBytecode_id (e : Expr) : e.mapBytecode id = e := by
  cases e with
  | vector | map | set | block | recur => rw [Expr.mapBytecode, mapBytecodeAll_id]
  | cond test yes no =>
    rw [Expr.mapBytecode, test.mapBytecode_id, yes.mapBytecode_id, mapBytecodeOption_id]
  | letIn | loop => rw [Expr.mapBytecode, mapBytecodeAll_id, mapBytecodeBindings_id]
  | fn f => rw [Expr.mapBytecode, mapBytecodeArities_id]; rfl
  | define => rw [Expr.mapBytecode, mapBytecodeOption_id]
  | setLocal _ e | setVar _ e | throw e => rw [Expr.mapBytecode, e.mapBytecode_id]
  | call e => rw [Expr.mapBytecode, e.mapBytecode_id, mapBytecodeAll_id]
  | attempt =>
    rw [Expr.mapBytecode, mapBytecodeAll_id, mapBytecodeCatches_id, mapBytecodeBody_id]
  | _ => rw [Expr.mapBytecode]

theorem mapBytecodeAll_id (es : List Expr) : mapBytecodeAll id es = es := by
  cases es with
  | nil => rfl
  | cons e rest => rw [mapBytecodeAll, e.mapBytecode_id, mapBytecodeAll_id rest]

theorem mapBytecodeOption_id (e : Option Expr) : mapBytecodeOption id e = e := by
  cases e with
  | none => rfl
  | some e => rw [mapBytecodeOption, e.mapBytecode_id]

theorem mapBytecodeBody_id (body : Option (List Expr)) : mapBytecodeBody id body = body := by
  cases body with
  | none => rfl
  | some es => rw [mapBytecodeBody, mapBytecodeAll_id]

theorem mapBytecodeBindings_id (bs : List (Bound Expr)) : mapBytecodeBindings id bs = bs := by
  cases bs with
  | nil => rfl
  | cons b rest =>
    obtain ⟨name, init⟩ := b
    rw [mapBytecodeBindings, init.mapBytecode_id, mapBytecodeBindings_id]

theorem mapBytecodeArities_id (as : List (Arity Expr)) : mapBytecodeArities id as = as := by
  cases as with
  | nil => rfl
  | cons a rest =>
    obtain ⟨params, variadic, body⟩ := a
    rw [mapBytecodeArities, mapBytecodeAll_id, mapBytecodeArities_id]

theorem mapBytecodeCatches_id (cs : List (CatchClause Expr)) : mapBytecodeCatches id cs = cs := by
  cases cs with
  | nil => rfl
  | cons c rest =>
    obtain ⟨cls, name, body⟩ := c
    rw [mapBytecodeCatches, mapBytecodeAll_id, mapBytecodeCatches_id]

end

theorem FnLiteral.mapBytecode_id (f : FnLiteral Expr) : f.mapBytecode id = f := by
  rw [FnLiteral.mapBytecode, mapBytecodeArities_id]
  rfl

end TwinLisp
