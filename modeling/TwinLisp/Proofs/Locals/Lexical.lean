import TwinLisp.Proofs.Coupling.Parsing
import TwinLisp.Proofs.Locals.Machine

/-! Frames hold what names stand for. The parser turns names into depths and indices; whatever a
program does, these lead to the bindings that the names have where they stand in its text, a frame has
a slot for each name of its scope, and `recur` has a body to run again.

* `Chart.engines`: engines with locals in frames and by name.
* `Chart.Enters`: how a call of an interpreted function begins.
* `Chart.frames_follow_names`: programs, forms and calls. -/

namespace TwinLisp

open Eval

namespace Chart

variable {c : Chart} {s t : State} {other other' : Locals}

/-! ## Engines -/

theorem apply_follows {E E' : Engine}
    (hE : mirroring.Engines (lexical other other') (fun _ => True) E fun _ => E')
    (hc : E.cycle = Machine.step E.call) (hc' : E'.cycle = Machine.step E'.call)
    (hr : E'.rounds = E.rounds) {w : mirroring.World} (f : Value) (args : List Value) :
    mirroring.Follows (fun _ => True) mirroring.value mirroring.fault w (f.apply E args) fun _ =>
      f.apply E' args := by
  have hargs : mirroring.values w args args := values_iff.mpr rfl
  cases f with
  | fn i name =>
    refine Coupling.callFunction_follows (descent other other') shared hE (value_iff.mpr rfl) ?_
      hargs
    intro s t (hst : Mirrors w s t)
    cases hg : s.store.functions[i]? with
    | none =>
      refine .inl ⟨rfl, hg, ?_⟩
      rw [Array.getElem?_eq_none_iff] at hg ⊢
      rw [hst.functions]
      exact hg
    | some g =>
      obtain ⟨sc, j, hj, hp, he⟩ := hst.function hg
      refine .inr ⟨g.literal, g.frame, j, sc, ?_, hj, hp, he⟩
      rw [show (lexical other other').erase = id from rfl, FnLiteral.mapBytecode_id]
      exact hg
  | closure i name =>
    simp only [Value.apply, hc, hc', hr]
    exact agreeOn_value.mp (executeBy_agrees hE.call _ i args)
  | _ =>
    exact Coupling.apply_follows shared hE (value_iff.mpr rfl) hargs fun hf =>
      absurd hf Bool.noConfusion

theorem apply_framing (level : Nat) (ih : mirroring.Engines (lexical other other') (fun _ => True)
      (Engine.framing other level) fun _ => Engine.naming other' level) {w : mirroring.World}
    (f : Value) (args : List Value) :
    mirroring.Follows (fun _ => True) mirroring.value mirroring.fault w
      (f.apply (Engine.framing other level) args) fun _ =>
        f.apply (Engine.naming other' level) args :=
  apply_follows ih (Engine.cycle_built ..) (Engine.cycle_built ..)
    ((Engine.rounds_built ..).trans (Engine.rounds_built ..).symm) f args

theorem engines (other other' : Locals) (level : Nat) :
    mirroring.Engines (lexical other other') (fun _ => True) (Engine.framing other level)
      fun _ => Engine.naming other' level := by
  have hassign : ∀ w v x y, mirroring.value w x y →
      mirroring.Follows (fun _ => True) mirroring.same mirroring.fault w (Run.assign v x) fun _ =>
        Run.assign v y := fun w v x y h => by
    cases value_iff.mp h
    exact agreeOn_blind (.assign v x)
  induction level with
  | zero =>
    exact {
      first := rfl
      second := fun _ => rfl
      call := fun _ _ _ _ _ _ _ => .exhausted fun _ _ _ => rfl
      late := fun _ _ _ _ _ _ => .exhausted fun _ _ _ => rfl
      assign := hassign
      enough := ⟨0, fun _ _ => Nat.le_refl 0⟩
      few := fun _ _ => Nat.le_refl 0
      prompt := fun _ => .inl (Nat.le_refl 0) }
  | succ level ih =>
    refine ⟨rfl, fun _ => rfl, fun w f g xs ys hf hx => ?_, fun _ w v args span ha => ?_, hassign,
      ⟨0, fun _ _ => Nat.le_refl level⟩, fun _ _ => Nat.le_refl level,
      fun _ => .inl (Nat.le_refl level)⟩
    · cases value_iff.mp hf
      cases values_iff.mp hx
      exact apply_framing level ih f xs
    · exact Coupling.lateCall_follows shared ih (prepares other other') trivial v ha span w

theorem texts (other other' : Locals) (level : Nat) (w : mirroring.World) :
    mirroring.Texts (fun _ => True) (Engine.framing other level)
      (fun _ => Engine.naming other' level) w where
  form {w'} _ p _ _ _ := by
    simp only [Engine.framing, Engine.naming, Engine.cycle_built, Engine.rounds_built]
    exact agreeOn_value.mp (executeFormBy_agrees (engines other other' level).call _ p)
  report _ e := agreeOn_blind (Session.blind_reportFallback rfl e)

/-! ## Programs and calls -/

section Agrees

variable (h : c.Mirrors s t) (other other' : Locals) (level : Nat)

include h

theorem apply_agrees (f : Value) (args : List Value) :
    c.Agree (f.apply (Engine.framing other level) args s)
      (f.apply (Engine.naming other' level) args t) :=
  agree_of_follows (fun _ _ _ => fault_iff.mp)
    (agreeOn_value.mpr (apply_framing level (engines other other' level) f args)) h

theorem eval_agrees {e : Expr} (he : e.Parsed .bare [] .top) :
    c.Agree (e.eval (Engine.framing other level) none s)
      (e.eval (Engine.naming other' level) none t) :=
  agree_of_follows (fun _ _ _ => fault_iff.mp) (agreeOn_value.mpr <|
    Coupling.eval_follows shared (engines other other' level) (parsed_of_bare he) (.inl rfl)
      (Expr.mapBytecode_id e).symm .outermost) h

theorem evalSource_agrees (source : String) :
    c.Agree (Session.evalSourceBy (Engine.framing other level) source s)
      (Session.evalSourceBy (Engine.naming other' level) source t) := by
  have hrun := Coupling.evalSource_follows (w := c) shared (engines other other' level)
    (prepares other other') (texts other other' level c) source
  exact agree_of_follows (fun _ _ _ hf => (literal.failure trivial hf).1)
    (hrun.imp (fun _ _ _ _ hx => value_iff.mp hx) fun _ _ _ _ he => he) h

end Agrees

/-! ## Calls of interpreted functions -/

/-- A call that enters a body. It runs in a new frame with a slot for the function and one for each
parameter, as the parser laid it out; wherever it asks to be run again, it has a value for each
parameter. -/
structure Enters (c : Chart) (E : Engine) (s : State) (id : Nat) (name : String)
    (args : List Value) (g : Function) (a : Arity Expr) : Prop where
  arity : g.literal.arityFor? args.length = some a
  slots : (callSlots (.fn id name) a args).length = (g.literal.name.getD "" :: a.params).length
  laid : ∃ sc j, c.Env sc g.frame j ∧
    BodyParsed rules ((g.literal.name.getD "" :: a.params).reverse :: sc) (.body a.params.length)
      a.body ∧
    ∀ {d : Chart} {s' t' k l values s''}, d.Mirrors s' t' →
      d.Env ((g.literal.name.getD "" :: a.params).reverse :: sc) k l →
      flowBody E a.body k s' = .ok (.again values) s'' → values.length = a.params.length
  run : callFunction E id name args s =
    Act.ending (rounds E.locals (flowBody E a.body) g.frame (g.literal.name.getD "" :: a.params)
        [.fn id name] E.rounds (some s.store.frames.size)) (fun s => { s with depth := s.depth - 1 })
      { s with
        depth := s.depth + 1
        store := (s.store.newFrame g.frame (callSlots (.fn id name) a args).toArray).2 }

section Call

variable {E : Engine} {id : Nat} {name : String} {args : List Value} {g : Function}
  (hg : s.store.functions[id]? = some g)

include hg

theorem callFunction_wrongArity (ha : g.literal.arityFor? args.length = none) :
    callFunction E id name args s =
      .error (.raised ⟨.wrongArity name args.length, .unknown⟩) s := by
  unfold callFunction
  simp only [Act.bind_apply, Act.askStore, hg, ha]
  rfl

theorem callFunction_stackOverflow {a : Arity Expr}
    (ha : g.literal.arityFor? args.length = some a) (hd : s.config.maxDepth ≤ s.depth) :
    callFunction E id name args s = .error (.raised ⟨.stackOverflow, g.literal.span⟩) s := by
  unfold callFunction
  simp only [Act.bind_apply, Act.askStore, hg, ha, Run.enter, if_pos hd]

theorem callFunction_begins {a : Arity Expr} (ha : g.literal.arityFor? args.length = some a)
    (hd : s.depth < s.config.maxDepth) {scope : Option Nat} {s' : State}
    (hs : E.locals.scope g.frame (g.literal.name.getD "" :: a.params)
      (callSlots (.fn id name) a args) { s with depth := s.depth + 1 } = .ok scope s') :
    callFunction E id name args s =
      Act.ending (rounds E.locals (flowBody E a.body) g.frame
        (g.literal.name.getD "" :: a.params) [.fn id name] E.rounds scope)
        (fun s => { s with depth := s.depth - 1 }) s' := by
  unfold callFunction
  simp only [Act.bind_apply, Act.askStore, hg, ha, Run.enter, if_neg (Nat.not_le.mpr hd),
    Act.ending, hs]

end Call

/-- A body that asks to be run again has a value for each parameter. -/
theorem length_again (h : c.Mirrors s t) {n : Nat} {es : List Expr} {sc : Scopes}
    (he : BodyParsed rules sc (.body n) es) {k j : Option Nat} (henv : c.Env sc k j)
    (other : Locals) (level : Nat) {values : List Value} {s' : State}
    (hrun : flowBody (Engine.framing other level) es k s = .ok (.again values) s') :
    values.length = n := by
  have hf := Coupling.flowBody_follows shared (engines other other level) es he henv s t h
  rw [show (lexical other other).erase = id from rfl, mapBytecodeAll_id, hrun] at hf
  cases hf with
  | @ok w' x y s' t' _ hw hx hs hc =>
    match y, hx with
    | .again ys, ⟨_, hn, _⟩ => exact (Option.some.inj hn).symm

/-- A call of an interpreted function fails before its body runs, or enters a body. -/
theorem call_enters (h : c.Mirrors s t) (other : Locals) (level : Nat) {id : Nat} {g : Function}
    (hg : s.store.functions[id]? = some g) (name : String) (args : List Value) :
    callFunction (Engine.framing other level) id name args s =
        .error (.raised ⟨.wrongArity name args.length, .unknown⟩) s ∨
      callFunction (Engine.framing other level) id name args s =
        .error (.raised ⟨.stackOverflow, g.literal.span⟩) s ∨
      ∃ a, c.Enters (Engine.framing other level) s id name args g a := by
  obtain ⟨sc, j, -, hp, he⟩ := h.function hg
  cases ha : g.literal.arityFor? args.length with
  | none => exact .inl (callFunction_wrongArity hg ha)
  | some a =>
    rcases Nat.lt_or_ge s.depth s.config.maxDepth with hd | hd
    · have hslots : (callSlots (.fn id name) a args).length = a.params.length + 1 :=
        Coupling.length_callSlots hp.literal ha
      obtain ⟨params, variadic, body⟩ := a
      have hbody := hp.arities params variadic body (FnLiteral.mem_of_arityFor? ha)
      refine .inr (.inr ⟨_, ha, hslots, ⟨sc, j, he, hbody, fun hm henv hrun =>
        length_again hm hbody henv other level hrun⟩, callFunction_begins hg ha hd ?_⟩)
      rw [Engine.framing, Engine.locals_built]
      simp only [Locals.slotted, List.length_cons, hslots, if_true]
      rfl
    · exact .inr (.inl (callFunction_stackOverflow hg ha hd))

/-! ## Interpreters -/

/-- No frames and no bindings. -/
def blank : Chart := ⟨[], [], []⟩

theorem mirrors_bare (config : Config) :
    blank.Mirrors (State.bare .empty config) (State.bare .empty config) where
  apart := rfl
  frames := rfl
  frame h := nomatch h
  cells := rfl
  cell h := nomatch h
  linked h := nomatch h
  distinct h := nomatch h
  functions := rfl
  function h := nomatch h

/-- A new interpreter, on a store that may be in use. -/
theorem Mirrors.fresh (h : c.Mirrors s t) (config : Config) :
    c.Mirrors (State.fresh s.store config) (State.fresh t.store config) := by
  have hdefine : ∀ owner ops F G (s : State),
      State.define owner (s.viewing F G) ops = (State.define owner s ops).viewing F G := by
    intro owner ops F G s
    induction ops generalizing s with
    | nil => rfl
    | cons op rest ih =>
      exact ih { s with
        store := (s.store.newVar coreNamespace op.text).2.setVar
          (s.store.newVar coreNamespace op.text).1 (.native owner op)
        names := s.names.add (s.store.newVar coreNamespace op.text).1 }
  exact h.blind (f := fun s => State.fresh s.store config) fun F G s =>
    hdefine s.store.owners Native.all F G (State.bare { s.store with owners := s.store.owners + 1 } config)

/-- **Frames follow names.** Interpreters begin in states that mirror each other, with locals in frames
and by name, and in such states everything has the same outcome in both, which leads to such states
again: texts of programs, forms that any parser run has accepted, and calls of values. So each local
is read and changed where its name leads in the text of the program. The same outcome is reached
whatever `other` locals do where frames would not do, be it that they report an unbound local or a
stray `recur` as the interpreter does, or that they never end: nothing of that kind comes up. A call
of an interpreted function fails before its body runs, or enters a body in a frame that fits it. -/
theorem frames_follow_names (other other' : Locals) (level : Nat) :
    (∀ config, blank.Mirrors (State.fresh .empty config) (State.fresh .empty config)) ∧
    ∀ {c : Chart} {s t : State}, c.Mirrors s t →
      (∀ config, c.Mirrors (State.fresh s.store config) (State.fresh t.store config)) ∧
      ∀ E ∈ [Engine.ofFuel level, Engine.framing other level],
        (∀ source, c.Agree (Session.evalSourceBy E source s)
          (Session.evalSourceBy (Engine.naming other' level) source t)) ∧
        (∀ call f e s₀ s₁, f.Proper → Expr.ofForm call f s₀ = .ok e s₁ →
          c.Agree (e.eval E none s) (e.eval (Engine.naming other' level) none t)) ∧
        (∀ f args, c.Agree (Value.apply E f args s)
          (Value.apply (Engine.naming other' level) f args t)) ∧
        ∀ id g, s.store.functions[id]? = some g → ∀ name args,
          callFunction E id name args s =
              .error (.raised ⟨.wrongArity name args.length, .unknown⟩) s ∨
            callFunction E id name args s =
              .error (.raised ⟨.stackOverflow, g.literal.span⟩) s ∨
            ∃ a, c.Enters E s id name args g a := by
  refine ⟨fun config => (mirrors_bare config).fresh config, fun h => ⟨h.fresh, fun E hE => ?_⟩⟩
  obtain ⟨o, rfl⟩ : ∃ o, E = Engine.framing o level := by
    rcases List.mem_pair.mp hE with rfl | rfl
    · exact ⟨.framed, congrFun Engine.framing_framed.symm level⟩
    · exact ⟨other, rfl⟩
  exact ⟨evalSource_agrees h o other' level,
    fun _ _ _ _ _ hf he => eval_agrees h o other' level (Expr.parsed_of_ofForm hf he),
    apply_agrees h o other' level, fun _ _ hg => call_enters h o level hg⟩

/-- The text `(loop [x true] (if x (recur nil) ((fn [x y] y) x true)))`. -/
def turning : Form :=
  .list [.symbol "loop" .unknown,
    .vector [.symbol "x" .unknown, .atom (.bool true) .unknown] .unknown,
    .list [.symbol "if" .unknown, .symbol "x" .unknown,
      .list [.symbol "recur" .unknown, .atom .nil .unknown] .unknown,
      .list [.list [.symbol "fn" .unknown,
        .vector [.symbol "x" .unknown, .symbol "y" .unknown] .unknown,
        .symbol "y" .unknown] .unknown,
        .symbol "x" .unknown, .atom (.bool true) .unknown] .unknown] .unknown] .unknown

theorem proper_turning : turning.Proper := by
  have hbinding : Form.AllProper [.symbol "x" .unknown, .atom (.bool true) .unknown] :=
    .cons .symbol (.cons (.atom fun _ => rfl) .nil)
  have hrecur : Form.AllProper [.symbol "recur" .unknown, .atom .nil .unknown] :=
    .cons .symbol (.cons (.atom fun _ => rfl) .nil)
  have hparams : Form.AllProper [.symbol "x" .unknown, .symbol "y" .unknown] :=
    .cons .symbol (.cons .symbol .nil)
  have hfn : Form.AllProper [.symbol "fn" .unknown,
      .vector [.symbol "x" .unknown, .symbol "y" .unknown] .unknown, .symbol "y" .unknown] :=
    .cons .symbol (.cons (.vector hparams) (.cons .symbol .nil))
  exact .list (Form.AllProper.cons .symbol (.cons (.vector hbinding) (.cons (.list
    (Form.AllProper.cons .symbol (.cons .symbol (.cons (.list hrecur) (.cons (.list
      (Form.AllProper.cons (.list hfn) hbinding)) .nil))))) .nil)))

/-- An interpreter with one function, which returns its argument. -/
def keeping : State :=
  { State.bare .empty .standard with
    store := { Store.empty with functions :=
      #[⟨⟨some "keep", [⟨["x"], false, [.localRef ⟨"x", 0, 1⟩ .unknown]⟩], .unknown, none⟩, none⟩] } }

theorem mirrors_keeping : blank.Mirrors keeping keeping where
  apart := rfl
  frames := rfl
  frame h := nomatch h
  cells := rfl
  cell h := nomatch h
  linked h := nomatch h
  distinct h := nomatch h
  functions := rfl
  function {i g} h := by
    match i, h with
    | 0, h =>
      cases h
      refine ⟨[], none, rfl, ⟨fun a ha hv => ?_, fun params variadic body h => ?_⟩, .outermost⟩
      · cases List.mem_singleton.mp ha
        cases hv
      · cases List.mem_singleton.mp h
        exact .last (.localRef rfl)

theorem turning_follows_names : blank.Mirrors keeping keeping ∧
    (∃ e s₁ s₂, Expr.ofForm (fun _ _ => Act.exhausted) turning keeping = .ok e s₁ ∧
      e.eval (Engine.ofFuel 9) none keeping = .ok (.bool true) s₂ ∧
      blank.Agree (e.eval (Engine.ofFuel 9) none keeping)
        (e.eval (Engine.naming .framed 9) none keeping)) ∧
    ∃ g a, keeping.store.functions[0]? = some g ∧
      blank.Enters (Engine.ofFuel 9) keeping 0 "keep" [.nil] g a := by
  obtain ⟨-, hforms, -, hcalls⟩ := ((frames_follow_names .framed .framed 9).2 mirrors_keeping).2
    (Engine.ofFuel 9) List.mem_cons_self
  refine ⟨mirrors_keeping, ⟨_, _, _, rfl, rfl, ?_⟩, ?_⟩
  · exact hforms (fun _ _ => Act.exhausted) turning _ keeping _ proper_turning rfl
  · rcases hcalls 0 _ rfl "keep" [.nil] with h | h | ⟨a, h⟩
    · cases h
    · cases h
    · exact ⟨_, a, rfl, h⟩

end Chart

end TwinLisp
