import TwinLisp.Expr.Special

/-! Changing the places of local names, as when a program stands inside further scopes.

* `Expr.relocate`: applies a function to the place of every local name.
* `Expr.relocate_id`: what it keeps.
* `Scopes.Covers`: scopes that hold the names of others at other places. -/

namespace TwinLisp

mutual

/-- Applies a function to the place of every local name. -/
def Expr.relocate (g : Binding → Binding) : Expr → Expr
  | .literal v span => .literal v span
  | .quote v span => .quote v span
  | .vector items span => .vector (relocateAll g items) span
  | .map items span => .map (relocateAll g items) span
  | .set items span => .set (relocateAll g items) span
  | .localRef b span => .localRef (g b) span
  | .varRef v span => .varRef v span
  | .theVar v span => .theVar v span
  | .cond test yes no span => .cond (test.relocate g) (yes.relocate g) (relocateOption g no) span
  | .block body span => .block (relocateAll g body) span
  | .letIn bindings body span => .letIn (relocateBindings g bindings) (relocateAll g body) span
  | .loop bindings body span => .loop (relocateBindings g bindings) (relocateAll g body) span
  | .recur args span => .recur (relocateAll g args) span
  | .fn ⟨name, arities, fspan, compiled⟩ span =>
    .fn ⟨name, relocateArities g arities, fspan, compiled⟩ span
  | .define v value span => .define v (relocateOption g value) span
  | .setLocal b value span => .setLocal (g b) (value.relocate g) span
  | .setVar v value span => .setVar v (value.relocate g) span
  | .call callee args span => .call (callee.relocate g) (relocateAll g args) span
  | .throw value span => .throw (value.relocate g) span
  | .attempt body catches finish span =>
    .attempt (relocateAll g body) (relocateCatches g catches) (relocateBody g finish) span
  | .macroCall v args span => .macroCall v args span

def relocateAll (g : Binding → Binding) : List Expr → List Expr
  | [] => []
  | e :: rest => e.relocate g :: relocateAll g rest

def relocateOption (g : Binding → Binding) : Option Expr → Option Expr
  | none => none
  | some e => some (e.relocate g)

def relocateBody (g : Binding → Binding) : Option (List Expr) → Option (List Expr)
  | none => none
  | some body => some (relocateAll g body)

def relocateBindings (g : Binding → Binding) : List (Bound Expr) → List (Bound Expr)
  | [] => []
  | ⟨name, init⟩ :: rest => ⟨name, init.relocate g⟩ :: relocateBindings g rest

def relocateArities (g : Binding → Binding) : List (Arity Expr) → List (Arity Expr)
  | [] => []
  | ⟨params, variadic, body⟩ :: rest =>
    ⟨params, variadic, relocateAll g body⟩ :: relocateArities g rest

def relocateCatches (g : Binding → Binding) : List (CatchClause Expr) → List (CatchClause Expr)
  | [] => []
  | ⟨cls, name, body⟩ :: rest => ⟨cls, name, relocateAll g body⟩ :: relocateCatches g rest

end

/-- The literal with its local names at other places. -/
def FnLiteral.relocate (g : Binding → Binding) (f : FnLiteral Expr) : FnLiteral Expr :=
  ⟨f.name, relocateArities g f.arities, f.span, f.compiled⟩

def Arity.relocate (g : Binding → Binding) (a : Arity Expr) : Arity Expr :=
  ⟨a.params, a.variadic, relocateAll g a.body⟩

def Bound.relocate (g : Binding → Binding) (b : Bound Expr) : Bound Expr :=
  ⟨b.name, b.init.relocate g⟩

def CatchClause.relocate (g : Binding → Binding) (c : CatchClause Expr) : CatchClause Expr :=
  ⟨c.cls, c.name, relocateAll g c.body⟩

variable (g : Binding → Binding)

theorem relocateAll_eq_map (es : List Expr) : relocateAll g es = es.map (Expr.relocate g) := by
  induction es with
  | nil => rfl
  | cons e rest ih => rw [relocateAll, List.map_cons, ih]

theorem relocateBindings_eq_map (bs : List (Bound Expr)) :
    relocateBindings g bs = bs.map (Bound.relocate g) := by
  induction bs with
  | nil => rfl
  | cons b rest ih => rw [relocateBindings, List.map_cons, ih, Bound.relocate]

theorem relocateArities_eq_map (as : List (Arity Expr)) :
    relocateArities g as = as.map (Arity.relocate g) := by
  induction as with
  | nil => rfl
  | cons a rest ih => rw [relocateArities, List.map_cons, ih, Arity.relocate]

theorem relocateCatches_eq_map (cs : List (CatchClause Expr)) :
    relocateCatches g cs = cs.map (CatchClause.relocate g) := by
  induction cs with
  | nil => rfl
  | cons c rest ih => rw [relocateCatches, List.map_cons, ih, CatchClause.relocate]

theorem relocateAll_reverse (es : List Expr) :
    relocateAll g es.reverse = (relocateAll g es).reverse := by
  rw [relocateAll_eq_map, relocateAll_eq_map, List.map_reverse]

theorem relocateBindings_reverse (bs : List (Bound Expr)) :
    relocateBindings g bs.reverse = (relocateBindings g bs).reverse := by
  rw [relocateBindings_eq_map, relocateBindings_eq_map, List.map_reverse]

theorem relocateArities_reverse (as : List (Arity Expr)) :
    relocateArities g as.reverse = (relocateArities g as).reverse := by
  rw [relocateArities_eq_map, relocateArities_eq_map, List.map_reverse]

theorem relocateCatches_reverse (cs : List (CatchClause Expr)) :
    relocateCatches g cs.reverse = (relocateCatches g cs).reverse := by
  rw [relocateCatches_eq_map, relocateCatches_eq_map, List.map_reverse]

/-! ## What does not depend on places -/

theorem length_relocateBindings (bs : List (Bound Expr)) :
    (relocateBindings g bs).length = bs.length := by
  rw [relocateBindings_eq_map, List.length_map]

theorem isSome_relocateBody (body : Option (List Expr)) :
    (relocateBody g body).isSome = body.isSome := by
  cases body <;> rfl

theorem isEmpty_relocateCatches (cs : List (CatchClause Expr)) :
    (relocateCatches g cs).isEmpty = cs.isEmpty := by
  cases cs <;> rfl

namespace Parse

theorem constants_relocate (es : List Expr) : constants (relocateAll g es) = constants es := by
  induction es with
  | nil => rfl
  | cons e rest ih =>
    rw [constants, constants] at ih
    rw [constants, relocateAll, List.filterMap_cons, ih, constants, List.filterMap_cons]
    cases e <;> simp only [Expr.relocate]

theorem distinct_relocate (es : List Expr) (span : Span) :
    distinct (relocateAll g es) span = distinct es span := by
  rw [distinct, constants_relocate, distinct]

theorem everyOther_relocate (es : List Expr) :
    everyOther (relocateAll g es) = relocateAll g (everyOther es) := by
  match es with
  | [] | [_] => rfl
  | k :: v :: rest => simp only [relocateAll, everyOther, everyOther_relocate rest]

theorem checkOverload_relocate (span : Span) (earlier : List (Arity Expr)) (params : List String)
    (variadic : Bool) (body : List Expr) :
    checkOverload span (relocateArities g earlier) ⟨params, variadic, relocateAll g body⟩ =
      checkOverload span earlier ⟨params, variadic, body⟩ := by
  rw [checkOverload, relocateArities_eq_map, List.any_map, List.any_map]
  rfl

end Parse

/-! ## Places that do not change -/

mutual

theorem Expr.relocate_id (e : Expr) : e.relocate id = e := by
  cases e with
  | vector | map | set | block | recur => rw [Expr.relocate, relocateAll_id]
  | cond test yes no => rw [Expr.relocate, test.relocate_id, yes.relocate_id, relocateOption_id]
  | letIn | loop => rw [Expr.relocate, relocateAll_id, relocateBindings_id]
  | fn f => rw [Expr.relocate, relocateArities_id]
  | define => rw [Expr.relocate, relocateOption_id]
  | setLocal _ e => rw [Expr.relocate, e.relocate_id, id]
  | setVar _ e | throw e => rw [Expr.relocate, e.relocate_id]
  | call e => rw [Expr.relocate, e.relocate_id, relocateAll_id]
  | attempt => rw [Expr.relocate, relocateAll_id, relocateCatches_id, relocateBody_id]
  | _ => rfl

theorem relocateAll_id (es : List Expr) : relocateAll id es = es := by
  cases es with
  | nil => rfl
  | cons e rest => rw [relocateAll, e.relocate_id, relocateAll_id rest]

theorem relocateOption_id (e : Option Expr) : relocateOption id e = e := by
  cases e with
  | none => rfl
  | some e => rw [relocateOption, e.relocate_id]

theorem relocateBody_id (body : Option (List Expr)) : relocateBody id body = body := by
  cases body with
  | none => rfl
  | some es => rw [relocateBody, relocateAll_id]

theorem relocateBindings_id (bs : List (Bound Expr)) : relocateBindings id bs = bs := by
  cases bs with
  | nil => rfl
  | cons b rest =>
    obtain ⟨name, init⟩ := b
    rw [relocateBindings, init.relocate_id, relocateBindings_id]

theorem relocateArities_id (as : List (Arity Expr)) : relocateArities id as = as := by
  cases as with
  | nil => rfl
  | cons a rest =>
    obtain ⟨params, variadic, body⟩ := a
    rw [relocateArities, relocateAll_id, relocateArities_id]

theorem relocateCatches_id (cs : List (CatchClause Expr)) : relocateCatches id cs = cs := by
  cases cs with
  | nil => rfl
  | cons c rest =>
    obtain ⟨cls, name, body⟩ := c
    rw [relocateCatches, relocateAll_id, relocateCatches_id]

end

/-! ## Scopes -/

namespace Scopes

theorem find?_cons_cons (name n : String) (names : List String) (sc : Scopes) :
    find? name ((n :: names) :: sc) =
      if n == name then some ⟨name, sc.length, names.length⟩ else find? name (names :: sc) := by
  rw [find?, slot?]
  cases n == name <;> rfl

theorem frame_lt_of_find? {name : String} {sc : Scopes} {b : Binding}
    (h : sc.find? name = some b) : b.frame < List.length sc := by
  induction sc with
  | nil => cases h
  | cons names outer ih =>
    rw [find?] at h
    cases hs : slot? name names with
    | some k =>
      rw [hs] at h
      cases h
      exact Nat.lt_succ_self _
    | none =>
      rw [hs] at h
      exact Nat.lt_succ_of_lt (ih h)

/-- Scopes that hold the names of others at other places, certain names apart; further scopes may be
put inside both. -/
structure Covers (avoid : String → Prop) (g : Binding → Binding) (deep sc : Scopes) : Prop where
  find : ∀ name, ¬ avoid name → deep.find? name = (sc.find? name).map g
  inside : ∀ name n index, g ⟨name, sc.length + n, index⟩ = ⟨name, deep.length + n, index⟩

variable {avoid : String → Prop} {g : Binding → Binding} {deep sc : Scopes}

theorem Covers.refl (avoid : String → Prop) (sc : Scopes) : Covers avoid id sc sc :=
  ⟨fun _ _ => (congrFun Option.map_id _).symm, fun _ _ _ => rfl⟩

theorem Covers.push (h : Covers avoid g deep sc) (names : List String) :
    Covers avoid g (names :: deep) (names :: sc) where
  find name hn := by
    rw [find?, find?]
    cases slot? name names with
    | some index => exact congrArg some (h.inside name 0 index).symm
    | none => exact h.find name hn
  inside name n index := by
    have := h.inside name (1 + n) index
    rwa [← Nat.add_assoc, ← Nat.add_assoc] at this

theorem Covers.local? (h : Covers avoid g deep sc) {name : String} (hn : ¬ avoid name) :
    Parse.local? name deep = (Parse.local? name sc).map g := by
  rw [Parse.local?, Parse.local?, h.find name hn]
  split <;> rfl

end Scopes

end TwinLisp
