import TwinLisp.Proofs.Locals.Iterations
import TwinLisp.Proofs.Macro.Operands

/-! What `and`, `or` and `cond` do. Their operands are evaluated in turn, each at most once, until one
decides; operands behind it are not evaluated at all. The last operand of `and` and `or` and the results
of `cond` are where the form itself is, so that a `recur` there has the same target.

* `Store.SeesAs`: a frame from which the names of outer scopes are seen as from another one.
* `Macro.InTurn`, `Macro.Selects`: how operands are evaluated.
* `Macro.choices`: they are evaluated so. -/

namespace TwinLisp

open Eval Coupling

/-! ## Further frames -/

/-- From an inner frame, the names of a number of outer scopes are where they are as seen from an outer
frame, and will be. -/
def Store.SeesAs (s : Store) (n : Nat) (inner outer : Option Nat) : Prop :=
  ∀ t, s.Grows t → ∀ b : Binding, b.frame < n →
    (inner.bind fun i => t.holder? i b) = outer.bind fun i => t.holder? i b

/-- The state in which a frame without slots has been made. -/
def State.inside (env : Option Nat) (s : State) : State :=
  { s with store := (s.store.newFrame env #[]).2 }

/-- The state in which a frame has one slot more. -/
def State.holding (k : Nat) (v : Value) (s : State) : State :=
  { s with store := s.store.pushSlot k v }

namespace Store

variable {s t : Store} {n : Nat} {inner outer : Option Nat}

theorem SeesAs.refl (s : Store) (n : Nat) (env : Option Nat) : s.SeesAs n env env :=
  fun _ _ _ _ => rfl

theorem SeesAs.grows (h : s.SeesAs n inner outer) (hg : s.Grows t) : t.SeesAs n inner outer :=
  fun u hu => h u (hg.trans hu)

/-- From a new frame, names are seen as from the one it was made in. -/
theorem SeesAs.newFrame (h : s.SeesAs n inner outer) (hn : n ≤ s.depthBelow inner)
    (hi : ∀ p, inner = some p → ∃ f, s.frames[p]? = some f) :
    (s.newFrame inner #[]).2.SeesAs n (some s.frames.size) outer := by
  intro t ht b hb
  rw [← h t ((s.grows_newFrame inner #[]).trans ht) b hb, Option.bind_some]
  obtain ⟨f, hf, hparent, hdepth⟩ := ht s.frames.size _ Array.getElem?_push_size
  dsimp only at hparent hdepth
  cases inner with
  | none =>
    rw [depthBelow] at hn
    omega
  | some p =>
    obtain ⟨g, hg⟩ := hi p rfl
    obtain ⟨g', hg', -, hgdepth⟩ := (s.grows_newFrame (some p) #[]).trans ht p g hg
    rw [depthBelow, hg, Option.map_some, Option.getD_some] at hn hdepth
    rw [Option.bind_some, holder?, holder?,
      frameAt?_parent hf hparent hg' (by rw [hdepth, hgdepth]) (by omega)]

end Store

namespace Macro

/-! ## Evaluating in turn -/

/-- How the operands of `and` or `or` are evaluated in turn, in which state, and with what result. Each
but the last is evaluated in a new frame, which then holds its value; the answer of the last one is the
answer of the form. `k` operands have been evaluated before; the names of the `n` scopes around the form
are seen as from the frame `outer` of the form. -/
inductive InTurn (E : Engine) (conjunction : Bool) (n : Nat) (outer : Option Nat) :
    Nat → List Expr → Option Nat → State → EStateM.Result (Stop RuntimeError) State Flow → Prop
  | none {k env s v} (h : v = if conjunction then .bool true else .nil) :
    InTurn E conjunction n outer k [] env s (.ok (.value v) s)
  | last {k y env s} (hs : s.store.SeesAs n env outer) :
    InTurn E conjunction n outer k [y] env s ((y.relocate (.deepen n k)).flow E env s)
  | stopped {k y y' ys env s x u} (hs : (s.inside env).store.SeesAs n (some s.store.frames.size) outer)
    (h : (y.relocate (.deepen n (k + 1))).eval E (some s.store.frames.size) (s.inside env) =
      .error x u) :
    InTurn E conjunction n outer k (y :: y' :: ys) env s (.error x u)
  | decided {k y y' ys env s v u} (hs : (s.inside env).store.SeesAs n (some s.store.frames.size) outer)
    (h : (y.relocate (.deepen n (k + 1))).eval E (some s.store.frames.size) (s.inside env) = .ok v u)
    (hv : v.truthy ≠ conjunction) :
    InTurn E conjunction n outer k (y :: y' :: ys) env s
      (.ok (.value v) (u.holding s.store.frames.size v))
  | next {k y y' ys env s v u r} (hs : (s.inside env).store.SeesAs n (some s.store.frames.size) outer)
    (h : (y.relocate (.deepen n (k + 1))).eval E (some s.store.frames.size) (s.inside env) = .ok v u)
    (hv : v.truthy = conjunction)
    (hr : InTurn E conjunction n outer (k + 1) (y' :: ys) (some s.store.frames.size)
      (u.holding s.store.frames.size v) r) :
    InTurn E conjunction n outer k (y :: y' :: ys) env s r

/-- How the clauses of `cond` are tried in turn: tests up to the first that holds, and the expression
behind it, the answer of which is the answer of the form. -/
inductive Selects (E : Engine) (env : Option Nat) :
    List (Expr × Expr) → State → EStateM.Result (Stop RuntimeError) State Flow → Prop
  | none {s} : Selects E env [] s (.ok (.value .nil) s)
  | stopped {a b cs s x u} (h : a.eval E env s = .error x u) :
    Selects E env ((a, b) :: cs) s (.error x u)
  | found {a b cs s v u} (h : a.eval E env s = .ok v u) (hv : v.truthy = true) :
    Selects E env ((a, b) :: cs) s (b.flow E env u)
  | next {a b cs s v u r} (h : a.eval E env s = .ok v u) (hv : v.truthy = false)
    (hr : Selects E env cs u r) : Selects E env ((a, b) :: cs) s r

variable {E : Engine} {env : Option Nat} {s : State}

theorem flow_cond (test yes no : Expr) (span : Span) :
    (Expr.cond test yes (some no) span).flow E env s =
      match test.eval E env s with
      | .ok v u => if v.truthy then yes.flow E env u else no.flow E env u
      | .error x u => .error x u := by
  rw [Expr.flow, ← bind_assoc, ← Expr.eval, Act.bind_apply]
  cases test.eval E env s with
  | ok v u =>
    cases hv : v.truthy <;> simp [hv, flowElse]
  | error x u => rfl

/-- A chain of tests selects one of its results. -/
theorem selects_of_chain {cs : List (Expr × Expr)} {e : Expr} (h : Chain cs e) (E : Engine)
    (env : Option Nat) (s : State) : Selects E env cs s (e.flow E env s) := by
  induction h generalizing s with
  | none => exact .none
  | @clause a b cs e span _ ih =>
    rw [flow_cond]
    cases ha : a.eval E env s with
    | ok v u =>
      cases hv : v.truthy with
      | true =>
        simp only [hv, if_true]
        exact .found ha hv
      | false =>
        simp only [hv, Bool.false_eq_true, if_false]
        exact .next ha hv (ih u)
    | error x u => exact .stopped ha

/-! ## The test of an operand -/

theorem flow_localRef (hE : E.locals = .framed) {k : Nat} {b : Binding} {v : Value} (span : Span)
    (h : s.store.local? k b = some v) :
    (Expr.localRef b span).flow E (some k) s = .ok (.value v) s := by
  have hread : readLocal b span (some k) s = .ok v s := by
    rw [readLocal, Act.bind_apply, Act.askStore, h]
    rfl
  rw [Expr.flow, hE, show Locals.framed.read = readLocal from rfl, Act.bind_apply, hread]
  rfl

theorem flow_letIn (hE : E.locals = .framed) (name : String) (init body : Expr) (span : Span) :
    (Expr.letIn [⟨name, init⟩] [body] span).flow E env s =
      match init.eval E (some s.store.frames.size) (s.inside env) with
      | .ok v u => body.flow E (some s.store.frames.size) (u.holding s.store.frames.size v)
      | .error x u => .error x u := by
  have hscope : E.locals.scope env [] [] s = .ok (some s.store.frames.size) (s.inside env) := by
    rw [hE]
    rfl
  have hbind : ∀ v u, E.locals.bind (some s.store.frames.size) name v u =
      .ok (some s.store.frames.size) (u.holding s.store.frames.size v) := by
    rw [hE]
    exact fun _ _ => rfl
  rw [Expr.flow, Act.bind_apply, hscope]
  dsimp only
  rw [Act.bind_apply, bindAll, ← bind_assoc, ← Expr.eval, Act.bind_apply]
  cases init.eval E (some s.store.frames.size) (s.inside env) with
  | error x u => rfl
  | ok v u =>
    dsimp only
    rw [Act.bind_apply, hbind]
    rfl

/-- An operand is evaluated; if it decides, the answer is its value, else that of the others. -/
theorem flow_testing (hE : E.locals = .framed) (conjunction : Bool) (b : Binding)
    (first more : Expr) (span : Span) {v : Value} {u : State}
    (h : first.eval E (some s.store.frames.size) (s.inside env) = .ok v u)
    (hb : (u.holding s.store.frames.size v).store.local? s.store.frames.size b = some v) :
    (testing conjunction b first more span).flow E env s =
      if v.truthy = conjunction then
        more.flow E (some s.store.frames.size) (u.holding s.store.frames.size v)
      else .ok (.value v) (u.holding s.store.frames.size v) := by
  have hheld := flow_localRef hE span hb
  have heval : (Expr.localRef b span).eval E (some s.store.frames.size)
      (u.holding s.store.frames.size v) = .ok v (u.holding s.store.frames.size v) := by
    rw [Expr.eval, Act.bind_apply, hheld]
    rfl
  rw [testing, flow_letIn hE, h]
  dsimp only
  rw [flow_cond, heval]
  dsimp only
  cases conjunction <;> cases hv : v.truthy <;> simp [hheld]

end Macro

/-! ## Nested tests -/

namespace Chart

variable {c : Chart} {s t : State} {sc : Scopes} {i j : Option Nat} {p : Position}

theorem Mirrors.exists_frame (m : c.Mirrors s t) (he : c.Env sc i j) {k : Nat} (hk : i = some k) :
    ∃ f, s.store.frames[k]? = some f := by
  subst hk
  cases sc with
  | nil => cases he
  | cons names outer =>
    obtain ⟨k', _, hk', hframe⟩ := he.depth
    cases hk'
    obtain ⟨f, hf, -⟩ := m.frame hframe
    exact ⟨f, hf⟩

theorem Mirrors.holds (m : c.Mirrors s t) (he : c.Env sc i j) {y : Expr}
    (hy : y.Parsed rules ([] :: sc) p.nonTail) (level : Nat) (name : String) {v : Value} {u : State}
    (h : y.eval (Engine.ofFuel level) (some s.store.frames.size) (s.inside i) = .ok v u) :
    ∃ (d : Chart) (t' : State) (j' : Option Nat), d.Mirrors (u.holding s.store.frames.size v) t' ∧
      d.Env ([name] :: sc) (some s.store.frames.size) j' ∧
      (s.inside i).store.Grows (u.holding s.store.frames.size v).store ∧
      (u.holding s.store.frames.size v).store.local? s.store.frames.size ⟨name, sc.length, 0⟩ =
        some v := by
  obtain ⟨hm, hg⟩ := m.scope he
  have hf := keeps_follows hg (fun w _ hw => Coupling.eval_follows shared
    (engines .framed .framed level) hy (.inl rfl) (Expr.mapBytecode_id y).symm hw) _ t hm
  rw [Engine.framing_framed] at hf
  have hrun : y.eval (Engine.ofFuel level) (some s.store.frames.size)
      { s with store := (s.store.newFrame i #[]).2 } = .ok v u := h
  rw [hrun] at hf
  cases hf with
  | @ok w v' x s' t' _ hle hx hu _ =>
    obtain ⟨hv, hgrowing⟩ := hx
    have hu : Mirrors w u t' := hu
    obtain ⟨k, hk, hle', hd, hg'⟩ := hu.name hgrowing name v
    cases hk
    refine ⟨_, _, _, hd, hg'.env, (Le.trans hle hle').grows hm hd, ?_⟩
    obtain ⟨henv, -, hsize⟩ := hgrowing
    obtain ⟨_, parent, hk, hframe⟩ := henv.depth
    cases hk
    obtain ⟨f, hf, -, hdepth, hslots⟩ := hu.frame hframe
    have hpushed : (u.holding s.store.frames.size v).store.frames[s.store.frames.size]? =
        some { f with slots := f.slots.push v } := by
      rw [State.holding, Store.pushSlot, Array.getElem?_modify, if_pos rfl, hf]
      rfl
    have hlocal := Store.local?_own (i := 0) hpushed name
    rw [hdepth] at hlocal
    rw [hlocal, Array.getElem?_push, if_pos (by rw [hslots, hsize]; rfl)]

/-- The operands of nested tests are evaluated in turn. -/
theorem Mirrors.inTurn (m : c.Mirrors s t) (he : c.Env sc i j) {conjunction : Bool} {n k : Nat}
    {ys : List Expr} {e : Expr} (hn : Macro.Nested conjunction n k ys e) (hp : e.Parsed rules sc p)
    (hl : sc.length = n + k) {outer : Option Nat} (hs : s.store.SeesAs n i outer) (level : Nat) :
    Macro.InTurn (Engine.ofFuel level) conjunction n outer k ys i s
      (e.flow (Engine.ofFuel level) i s) := by
  have hE : (Engine.ofFuel level).locals = .framed := Engine.locals_built ..
  induction hn generalizing c s t sc i j with
  | none h =>
    rw [Expr.flow]
    exact .none h
  | last => exact .last hs
  | @more k y y' ys e fresh span _ ih =>
    rw [← hl] at hp
    obtain ⟨hy, he'⟩ := Macro.parsed_of_testing hp
    have hsees : (s.inside i).store.SeesAs n (some s.store.frames.size) outer := by
      refine hs.newFrame ?_ ?_
      · rw [m.depthBelow he]
        omega
      · exact fun _ => m.exists_frame he
    cases hrun : (y.relocate (.deepen n (k + 1))).eval (Engine.ofFuel level)
        (some s.store.frames.size) (s.inside i) with
    | error x u =>
      rw [Macro.testing, Macro.flow_letIn hE, hrun]
      exact .stopped hsees hrun
    | ok v u =>
      obtain ⟨d, t', j', hd, henv, hgrows, hlocal⟩ := m.holds he hy level fresh hrun
      rw [← hl, Macro.flow_testing hE conjunction _ _ _ span hrun hlocal]
      by_cases hv : v.truthy = conjunction
      · rw [if_pos hv]
        refine .next hsees hrun hv (ih hd henv he' ?_ (hsees.grows hgrows))
        rw [List.length_cons]
        omega
      · rw [if_neg hv]
        exact .decided hsees hrun hv

end Chart

namespace Macro

/-- **Operands in turn.** Where a form of `and` or `or` has been parsed, so have its operands, in turn and
where the form stands, if no fresh name of these macros occurs in them or in the code that macros of the
program yield. Wherever the form is evaluated, they are evaluated from left to right until one decides:
that is the first one that is false for `and`, and the first one that is true for `or`. Its value is the
answer; else the answer is that of the last one, which is where the form itself is, or that of the empty
form. The names around the form are seen by its operands as they are around it.

The tests and results of `cond` are parsed where the form stands as well, and the results where the form
itself is. They are evaluated in turn up to the first test that holds and the result behind it. -/
theorem choices {c : Caller} {n : Nat} {sc : Scopes} {p : Position} {s s' : State} {e : Expr} :
    (∀ conjunction operands place span, Form.AllFit Temporary operands →
      sc.find? (logicalName conjunction) = none →
      Expr.ofFormAt (c.heeding Temporary) n
          (.list (.symbol (logicalName conjunction) place :: operands) span) sc p s = .ok e s' →
        ∃ ys, Operands c sc p n operands s ys s' ∧
          ∀ {d : Chart} {u t : State} {env j}, d.Mirrors u t → d.Env sc env j → ∀ level,
            InTurn (Engine.ofFuel level) conjunction sc.length env 0 ys env u
              (e.flow (Engine.ofFuel level) env u)) ∧
    ∀ clauses place span, sc.find? "cond" = none →
      Expr.ofFormAt c n (.list (.symbol "cond" place :: clauses) span) sc p s = .ok e s' →
        ∃ cs, Clauses c sc p n clauses s cs s' ∧
          ∀ E env u, Selects E env cs u (e.flow E env u) := by
  constructor
  · intro conjunction operands place span hf hsc h
    have hnone : ∀ names ∈ ([] : Scopes), ∀ name ∈ names, Temporary name := nofun
    obtain ⟨ys, hys, hn⟩ := parse_logical hf hnone hsc h
    have hproper : (Form.list (.symbol (logicalName conjunction) place :: operands) span).Proper :=
      .list (Form.AllProper.cons .symbol hf.proper)
    refine ⟨ys, hys, fun m he level => ?_⟩
    exact m.inTurn he hn (Chart.parsed_of_bare (Expr.parsed_of_ofFormAt hproper h)) rfl (.refl _ _ _) level
  · intro clauses place span hsc h
    obtain ⟨cs, hcs, hchain⟩ := parse_cond hsc h
    exact ⟨cs, hcs, selects_of_chain hchain⟩

/-- The forms `x` and `(recur x)`. -/
def againWithX : List Form :=
  [.symbol "x" .unknown, .list [.symbol "recur" .unknown, .symbol "x" .unknown] .unknown]

theorem fit_againWithX : Form.AllFit Temporary againWithX := by
  have hx : (Form.symbol "x" .unknown).Fit Temporary :=
    Form.fit_symbol.mpr (not_temporary_of_short (by decide))
  have hrecur : (Form.symbol "recur" .unknown).Fit Temporary :=
    Form.fit_symbol.mpr (not_temporary_of_short (by decide))
  exact Form.AllFit.cons hx (Form.AllFit.cons
    (Form.fit_list.mpr (Form.AllFit.cons hrecur (Form.AllFit.cons hx Form.AllFit.nil)))
      Form.AllFit.nil)

/-- A call is going on of a function `f`, in a frame with its parameter `x`. -/
def calledWith (x : Value) : State :=
  { State.fresh .empty .standard with
    store := ((State.fresh .empty .standard).store.newFrame none #[.nil, x]).2 }

/-- In the body of a function, a conjunction and a `cond` come to a `recur` as their last operand, with
the value of the parameter as it is around them. -/
theorem choices_in_function : ∃ e s' ys u e' s'' cs u',
    Expr.ofFormAt ((Engine.ofFuel 1).call.heeding Temporary) 3
      (.list (.symbol "and" .unknown :: againWithX) .unknown) [["x", "f"]] (.body 1)
        (calledWith (.bool true)) = .ok e s' ∧
    Operands (Engine.ofFuel 1).call [["x", "f"]] (.body 1) 3 againWithX (calledWith (.bool true))
      ys s' ∧
    InTurn (Engine.ofFuel 2) true 1 (some 0) 0 ys (some 0) (calledWith (.bool true))
      (.ok (.again [.bool true]) u) ∧
    Expr.ofFormAt (Engine.ofFuel 1).call 3 (.list (.symbol "cond" .unknown :: againWithX) .unknown)
      [["x", "f"]] (.body 1) (calledWith (.bool true)) = .ok e' s'' ∧
    Clauses (Engine.ofFuel 1).call [["x", "f"]] (.body 1) 3 againWithX (calledWith (.bool true))
      cs s'' ∧
    Selects (Engine.ofFuel 2) (some 0) cs (calledWith (.bool true))
      (.ok (.again [.bool true]) u') := by
  obtain ⟨e, s', u, h, hflow⟩ : ∃ e s' u, Expr.ofFormAt ((Engine.ofFuel 1).call.heeding Temporary) 3
      (.list (.symbol "and" .unknown :: againWithX) .unknown) [["x", "f"]] (.body 1)
        (calledWith (.bool true)) = .ok e s' ∧
      e.flow (Engine.ofFuel 2) (some 0) (calledWith (.bool true)) = .ok (.again [.bool true]) u :=
    ⟨_, _, _, rfl, rfl⟩
  obtain ⟨e', s'', u', h', hflow'⟩ : ∃ e s' u, Expr.ofFormAt (Engine.ofFuel 1).call 3
      (.list (.symbol "cond" .unknown :: againWithX) .unknown) [["x", "f"]] (.body 1)
        (calledWith (.bool true)) = .ok e s' ∧
      e.flow (Engine.ofFuel 2) (some 0) (calledWith (.bool true)) = .ok (.again [.bool true]) u :=
    ⟨_, _, _, rfl, rfl⟩
  obtain ⟨ys, hys, hrun⟩ := choices.1 true againWithX .unknown .unknown fit_againWithX rfl h
  obtain ⟨cs, hcs, hsel⟩ := choices.2 againWithX .unknown .unknown rfl h'
  obtain ⟨d, t, j, -, -, hm, hg⟩ := ((Chart.mirrors_bare .standard).fresh .standard).names .outermost
    [("f", .nil), ("x", .bool true)]
  have hturn := hrun hm hg.env 2
  have hselects := hsel (Engine.ofFuel 2) (some 0) (calledWith (.bool true))
  rw [hflow'] at hselects
  exact ⟨e, s', ys, u, e', s'', cs, u', h, hys, hflow ▸ hturn, h', hcs, hselects⟩

/-- The text `(def and__1__auto false) (defmacro m [] 'and__1__auto)`. -/
def capturing : List Form :=
  [.list [.symbol "def" .unknown, .symbol "and__1__auto" .unknown, .atom (.bool false) .unknown]
      .unknown,
    .list [.symbol "defmacro" .unknown, .symbol "m" .unknown, .vector [] .unknown,
      .list [.symbol "quote" .unknown, .symbol "and__1__auto" .unknown] .unknown] .unknown]

/-- The operands `true` and `(m)`. -/
def capturedOperands : List Form := [.atom (.bool true) .unknown, .list [.symbol "m" .unknown] .unknown]

/-- A macro of the program yields a fresh name that the operands do not mention. By itself it stands for
a Var; as the last operand of a conjunction it stands for the value of the first one. -/
theorem temporary_is_captured :
    (∀ f ∈ capturedOperands, f.Avoids Temporary) ∧
    [Form.list [.symbol "m" .unknown] .unknown,
      .list (.symbol "and" .unknown :: capturedOperands) .unknown].map (fun f =>
        truthOf (Session.evalForms (Engine.ofFuel 9) .nil (capturing ++ [f]))
          (State.fresh .empty .standard)) = [some false, some true] := by
  constructor
  · have hm : ¬ Temporary "m" := not_temporary_of_short (by decide)
    refine List.forall_mem_cons.mpr ⟨nofun, List.forall_mem_singleton.mpr ?_⟩
    exact (Form.fit_list.mpr (Form.AllFit.cons (Form.fit_symbol.mpr hm) Form.AllFit.nil)).avoids
  · decide +kernel

end Macro

end TwinLisp
