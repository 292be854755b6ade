import TwinLisp.Proofs.Locals.Lexical
import TwinLisp.Proofs.Variables.Programs

/-! Programs that both engines run alike. Compiled code computes an operator of the core whatever the
Var of the operator holds, keeps the function itself in a slot that `recur` leaves alone, and cannot
contain a macro that is called late. So the program must not give an operator another value, assign to
the own name of a function, or call a macro late.

* `Expr.steady`: code that does not assign to the own name of a function, and names operators that have
  their native values.
* `Engine.strict`: an engine that goes no further where a program does otherwise.
* `Chart.strictSource_follows`: such an engine with locals in frames and by name. -/

namespace TwinLisp

/-! ## Steady code -/

/-- Whether calls of the Var with some number of arguments are one instruction. -/
def Var.isOperator (v : Var) : Bool :=
  (intrinsic? (.varRef v .unknown) 1).isSome || (intrinsic? (.varRef v .unknown) 2).isSome

/-- The operator of the core that a Var was made for: the Vars of the core are the first ones. -/
def Var.operator? (v : Var) : Option Native :=
  Native.all[v.id]?.filter fun op => Var.isOperator ⟨v.id, coreNamespace, op.text⟩

/-- Whether a value is a native of the core. -/
def Value.isNative (op : Native) : Value → Bool
  | .native _ op' => op' == op
  | _ => false

/-- Whether a Var may be given a value: that of an operator may be given its native alone. -/
def Var.admits (v : Var) (x : Value) : Bool := v.operator?.all x.isNative

/-- Whether a Var is that of an operator by its name as well, and holds the native. -/
def Store.isNative (s : Store) (v : Var) : Bool :=
  match v.operator?, s.varValue? v with
  | some op, some x => op.text == v.name && x.isNative op
  | _, _ => false

/-- The names in a function, the latest first, and whether each is the own name of a function. -/
abbrev Owned := List (String × Bool)

namespace Owned

def owns (name : String) (ks : Owned) : Bool := ks.lookup name == some true

/-- Further names, none of them that of a function. -/
def locals (names : List String) (ks : Owned) : Owned := (names.map (·, false)).reverse ++ ks

end Owned

mutual

/-- Whether the Vars of operators in an expression are `good`, and no own name of a function is assigned
to. -/
def Expr.steady (good : Var → Bool) (ks : Owned) : Expr → Bool
  | .literal .. | .quote .. | .localRef .. | .theVar .. | .macroCall .. => true
  | .varRef v _ => !v.isOperator || good v
  | .vector items _ | .map items _ | .set items _ | .block items _ | .recur items _ =>
    allSteady good ks items
  | .cond test yes no _ => test.steady good ks && yes.steady good ks && optionSteady good ks no
  | .letIn bindings body _ | .loop bindings body _ =>
    bindingsSteady good ks bindings &&
      allSteady good (ks.locals (bindings.map Bound.name)) body
  | .fn ⟨name, arities, _, _⟩ _ => aritiesSteady good (name.getD "") ks arities
  | .define _ value _ => optionSteady good ks value
  | .setLocal b value _ => !ks.owns b.name && value.steady good ks
  | .setVar _ value _ | .throw value _ => value.steady good ks
  | .call callee args _ => callee.steady good ks && allSteady good ks args
  | .attempt body catches finish _ =>
    allSteady good ks body && catchesSteady good ks catches && bodySteady good ks finish

def allSteady (good : Var → Bool) (ks : Owned) : List Expr → Bool
  | [] => true
  | e :: rest => e.steady good ks && allSteady good ks rest

def optionSteady (good : Var → Bool) (ks : Owned) : Option Expr → Bool
  | none => true
  | some e => e.steady good ks

def bodySteady (good : Var → Bool) (ks : Owned) : Option (List Expr) → Bool
  | none => true
  | some body => allSteady good ks body

def bindingsSteady (good : Var → Bool) (ks : Owned) : List (Bound Expr) → Bool
  | [] => true
  | ⟨name, init⟩ :: rest => init.steady good ks && bindingsSteady good ((name, false) :: ks) rest

def aritiesSteady (good : Var → Bool) (self : String) (ks : Owned) : List (Arity Expr) → Bool
  | [] => true
  | ⟨params, _, body⟩ :: rest =>
    allSteady good (Owned.locals params ((self, true) :: ks)) body &&
      aritiesSteady good self ks rest

def catchesSteady (good : Var → Bool) (ks : Owned) : List (CatchClause Expr) → Bool
  | [] => true
  | ⟨_, name, body⟩ :: rest => allSteady good ((name, false) :: ks) body && catchesSteady good ks rest

end

def FnLiteral.steady (good : Var → Bool) (ks : Owned) (f : FnLiteral Expr) : Bool :=
  aritiesSteady good (f.name.getD "") ks f.arities

/-! ## Strict engines -/

/-- Ends without a value; a text of its own replaces what has been printed. -/
def Act.leaving {ε α : Type} (text : String) : Act ε α := fun s =>
  .error .exhausted { s with output := text }

/-- Whether the code of a function is steady by now, if it is an interpreted one. -/
def State.ready (s : State) : Value → Bool
  | .fn id _ =>
    match s.store.functions[id]? with
    | some g => g.literal.steady s.store.isNative []
    | none => true
  | _ => true

namespace Engine

/-- The engine of a level that leaves with a text where a function is not steady, the Var of an operator
would be given another value, or a macro is called late. -/
def strict (L : Locals) (text : String) : (level : Nat) → Engine
  | 0 =>
    ⟨fun _ _ => Act.exhausted, fun _ _ _ => Act.leaving text,
      fun v x => if v.admits x then Run.assign v x else Act.leaving text, Machine.step, 0, L⟩
  | level + 1 =>
    ⟨fun f args s =>
        if s.ready f then f.apply (strict L text level) args s else Act.leaving text s,
      fun _ _ _ => Act.leaving text,
      fun v x => if v.admits x then Run.assign v x else Act.leaving text, Machine.step, level, L⟩

variable (L : Locals) (text : String) (level : Nat)

@[simp] theorem locals_strict : (strict L text level).locals = L := by cases level <;> rfl

@[simp] theorem rounds_strict : (strict L text level).rounds = level - 1 := by cases level <;> rfl

@[simp] theorem cycle_strict :
    (strict L text level).cycle = Machine.step (strict L text level).call := by
  cases level <;> rfl

@[simp] theorem assign_strict (v : Var) (x : Value) : (strict L text level).assign v x =
    if v.admits x then Run.assign v x else Act.leaving text := by
  cases level <;> rfl

@[simp] theorem late_strict (v : Var) (args : List Form) (span : Span) :
    (strict L text level).late v args span = Act.leaving text := by
  cases level <;> rfl

end Engine

namespace Session

/-- The value of a form by a strict engine, which leaves where the form is not steady. -/
def strictForm (L : Locals) (text : String) (level : Nat) (f : Form) : Session Value := do
  let e ← parseBy (.strict L text level) f
  Act.mapFault .runtime fun s =>
    if e.steady s.store.isNative [] then e.eval (.strict L text level) none s
    else Act.leaving text s

def strictForms (L : Locals) (text : String) (level : Nat) (last : Value) :
    List Form → Session Value
  | [] => pure last
  | f :: rest => do strictForms L text level (← strictForm L text level f) rest

/-- The value of a source by a strict engine, which walks the tree. -/
def strictSource (L : Locals) (text : String) (level : Nat) (source : String) : Session Value := do
  strictForms L text level .nil (← readSource source)

end Session

/-! ## Frames and names -/

namespace Chart

variable {c : Chart} {s t : State} {other other' : Locals} {text : String}
  {w : mirroring.World}

theorem leaving_follows {ε α : Type} {V : mirroring.World → α → α → Prop}
    {X : mirroring.World → ε → ε → Prop} {short : Nat → Prop} :
    mirroring.Follows short V X w (Act.leaving text) fun _ => Act.leaving text :=
  fun _ _ _ => .exhausted (.inr fun _ _ => ⟨0, fun _ _ => ⟨_, rfl, rfl⟩⟩)

theorem strictly_follows {ε α : Type} {V : mirroring.World → α → α → Prop}
    {X : mirroring.World → ε → ε → Prop} {short : Nat → Prop} {a b : Act ε α} {p q : State → Bool}
    (hpq : ∀ {s t}, Mirrors w s t → q t = p s) (h : mirroring.Follows short V X w a fun _ => b) :
    mirroring.Follows short V X w (fun s => if p s then a s else Act.leaving text s) fun _ t =>
      if q t then b t else Act.leaving text t := by
  intro s t hst
  simp only [at_mirroring, hpq hst]
  cases p s with
  | true => exact h s t hst
  | false => exact leaving_follows s t hst

theorem Mirrors.isNative (h : c.Mirrors s t) : t.store.isNative = s.store.isNative := by
  have hv := h.agree (fun s => s.store.vars) fun _ => rfl
  funext v
  rw [Store.isNative, Store.isNative, Store.varValue?, Store.varValue?, hv]

theorem Mirrors.ready (h : c.Mirrors s t) (f : Value) : t.ready f = s.ready f := by
  cases f with
  | fn id name =>
    rw [State.ready, State.ready, h.isNative]
    cases hg : s.store.functions[id]? with
    | none =>
      have : t.store.functions[id]? = none := by
        rw [Array.getElem?_eq_none_iff] at hg ⊢
        rw [h.functions]
        exact hg
      rw [this]
    | some g =>
      obtain ⟨_, _, hj, _, _⟩ := h.function hg
      rw [hj]
  | _ => rfl

theorem strict_engines (other other' : Locals) (text : String) (level : Nat) :
    mirroring.Engines (lexical other other') (fun _ => True) (.strict (.slotted other) text level)
      fun _ => .strict (.named other') text level := by
  have hassign : ∀ {level : Nat} w v x y, mirroring.value w x y →
      mirroring.Follows (fun _ => True) mirroring.same mirroring.fault w
        ((Engine.strict (.slotted other) text level).assign v x) fun _ =>
          (Engine.strict (.named other') text level).assign v y := fun w v x y h => by
    cases value_iff.mp h
    simp only [Engine.assign_strict]
    split
    · exact agreeOn_blind (.assign v x)
    · exact leaving_follows
  induction level with
  | zero =>
    exact {
      first := rfl
      second := fun _ => rfl
      call := fun _ _ _ _ _ _ _ => .exhausted fun _ _ _ => rfl
      late := fun _ _ _ _ _ _ => leaving_follows
      assign := hassign
      enough := ⟨0, fun _ _ => Nat.le_refl 0⟩
      few := fun _ _ => Nat.le_refl 0
      prompt := fun _ => .inl (Nat.le_refl 0) }
  | succ level ih =>
    refine ⟨rfl, fun _ => rfl, fun w f g xs ys hf hx => ?_, fun _ w v args span _ => leaving_follows,
      hassign, ⟨0, fun _ _ => Nat.le_refl level⟩, fun _ _ => Nat.le_refl level,
      fun _ => .inl (Nat.le_refl level)⟩
    cases value_iff.mp hf
    cases values_iff.mp hx
    exact strictly_follows (fun h => h.ready f) (apply_follows ih (Engine.cycle_strict ..)
      (Engine.cycle_strict ..) ((Engine.rounds_strict ..).trans (Engine.rounds_strict ..).symm) f xs)

theorem strictForm_follows (level : Nat) {f : Form} (hf : f.Proper) :
    mirroring.Follows (fun _ => True) mirroring.value mirroring.failure w
      (Session.strictForm (.slotted other) text level f) fun _ =>
        Session.strictForm (.named other') text level f := by
  have hE := strict_engines other other' text level
  have hparse : mirroring.Follows (fun _ => True) (mirroring.parsed [] .top) mirroring.failure w
      (Session.parseBy (.strict (.slotted other) text level) f) fun _ =>
        Session.parseBy (.strict (.named other') text level) f :=
    (Coupling.ofForm_follows shared hE.call hf w).mapFault fun _ _ _ h => h
  refine hparse.bind fun w₁ e e' _ he => ?_
  obtain ⟨rfl, he⟩ := he
  refine (strictly_follows (fun h => ?_) ?_).mapFault fun _ _ _ h => h
  · rw [Mirrors.isNative h]
  · exact Coupling.eval_follows shared hE (parsed_of_bare he) (.inl rfl) (Expr.mapBytecode_id _).symm
      .outermost

theorem strictForms_follow (level : Nat) {fs : List Form} (hf : Form.AllProper fs) {last last' : Value}
    (hl : mirroring.value w last last') :
    mirroring.Follows (fun _ => True) mirroring.value mirroring.failure w
      (Session.strictForms (.slotted other) text level last fs) fun _ =>
        Session.strictForms (.named other') text level last' fs := by
  induction fs generalizing w last last' with
  | nil => exact .pure hl
  | cons f rest ih =>
    exact (strictForm_follows level hf.head).bind fun w₁ x y _ hxy => ih hf.tail hxy

/-- Strict engines come to the same with locals in frames and by name. -/
theorem strictSource_follows (level : Nat) (source : String) (w : mirroring.World) :
    mirroring.Follows (fun _ => True) mirroring.value mirroring.failure w
      (Session.strictSource (.slotted other) text level source) fun _ =>
        Session.strictSource (.named other') text level source := by
  have hread : mirroring.Follows (fun _ => True) (fun _ fs gs => gs = fs ∧ Form.AllProper fs)
      mirroring.failure w (Session.readSource source) fun _ => Session.readSource source := by
    unfold Session.readSource
    cases hf : Form.read source with
    | ok forms => exact .pure ⟨rfl, Form.proper_of_read hf⟩
    | error e => exact .raise (show mirroring.failure w (.reader e) (.reader e) from rfl)
  refine hread.bind fun w₁ fs gs _ hfs => ?_
  obtain ⟨rfl, hfs⟩ := hfs
  exact strictForms_follow level hfs (Coupling.value.steady w₁ fun _ => rfl)

end Chart

/-! ## Locals by name on the ideal machine -/

namespace Store

theorem nearest?_congr {s t : Store} (h : t.frames = s.frames) (name : String) (fuel : Nat)
    (i : Option Nat) : t.nearest? name fuel i = s.nearest? name fuel i := by
  induction fuel generalizing i with
  | zero => rfl
  | succ fuel ih =>
    cases i with
    | none => rfl
    | some id => simp only [nearest?, h, ih]

theorem cellOf?_machine (s : Store) (C : Array Cell) (K : Array Closure) (name : String)
    (i : Option Nat) : cellOf? name i { s with cells := C, closures := K } = s.cellOf? name i :=
  nearest?_congr (s := s) (t := { s with cells := C, closures := K }) rfl ..

end Store

namespace Locals
open Machine.Ideal

theorem cells_eq (i : Option Nat) (bs : List (String × Value)) :
    ∃ f : Store → Option Nat × Array Frame, (∀ s C K, f { s with cells := C, closures := K } = f s) ∧
      ∀ s, cells i bs s = .ok (f s.store).1 { s with store := { s.store with frames := (f s.store).2 } } := by
  induction bs generalizing i with
  | nil => exact ⟨fun s => (i, s.frames), fun _ _ _ => rfl, fun _ => rfl⟩
  | cons b rest ih =>
    -- The cell of the first name is made whatever there is already; its identity is the number of frames.
    have hfirst : ∀ s, cells i (b :: rest) s = cells (some s.store.frames.size) rest
        { s with store := (s.store.newFrame i #[.symbol b.1, b.2]).2 } := fun _ => rfl
    choose f hf hrun using ih
    refine ⟨fun s => f (some s.frames.size) (s.newFrame i #[.symbol b.1, b.2]).2,
      fun s C K => hf _ (s.newFrame i #[.symbol b.1, b.2]).2 C K, fun s => ?_⟩
    rw [hfirst, hrun]
    rfl

theorem onFrames_named : OnFrames (.named .framed) where
  scope i names xs := by
    simp only [named]
    split
    · obtain ⟨f, hf, hrun⟩ := cells_eq i (names.zip xs)
      exact ⟨fun s => some (f s), ⟨.stackOverflow, .unknown⟩, RuntimeFault.plain_stackOverflow,
        fun s C K => congrArg some (hf s C K), fun s => hrun s⟩
    · exact Watch.onFrames_scope i names xs
  bind i name x :=
    ⟨fun s => some (some s.frames.size, (s.newFrame i #[.symbol name, x]).2.frames),
      ⟨.stackOverflow, .unknown⟩, RuntimeFault.plain_stackOverflow, fun _ _ _ => rfl, fun _ => rfl⟩
  read b span i := by
    obtain ⟨f, e, he, hf, hrun⟩ := Watch.onFrames_read b span i
    refine ⟨fun s => ((s.named? b.name i).map fun v => (v, s.frames)).or (f s), e, he, fun s C K => ?_,
      fun s => ?_⟩
    · simp only [hf, Store.named?, Store.cellOf?_machine, Store.slot?]
    simp only [named, Act.bind_apply, Act.askStore]
    cases s.store.named? b.name i with
    | some v => rfl
    | none => exact hrun s
  write b span i x := by
    obtain ⟨f, e, he, hf, hrun⟩ := Watch.onFrames_write b span i x
    refine ⟨fun s => ((s.cellOf? b.name i).map fun id => ((), (s.setSlot id 1 x).frames)).or (f s), e, he,
      fun s C K => ?_, fun s => ?_⟩
    · simp only [hf, Store.cellOf?_machine, Store.setSlot]
    simp only [named, Act.bind_apply, Act.askStore]
    cases s.store.cellOf? b.name i with
    | some id => rfl
    | none => exact hrun s
  stray _ span := Watch.onFrames_failAt (RuntimeFault.plain_general (by decide)) span

end Locals
end TwinLisp
